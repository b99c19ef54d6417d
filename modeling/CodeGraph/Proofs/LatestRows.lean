import CodeGraph.Proofs.FailedSelection
import CodeGraph.Proofs.ReachabilityQuery
import CodeGraph.Proofs.Registering
import CodeGraph.Proofs.Rendering

/-!
# Rows whose nodes have been forgotten

A registry with a bound keeps the pairs used last. A scan that meets every vertex once uses none of
them, because what its predicates ask for is staged and not registered yet. So the registry has the pairs
of the latest matches, in the order in which they came (`Registry.latest`, `Scan.Recent`), and rendering,
which only uses entries, leaves them there. In the result of a query for one source on a graph in memory
the last rows show nodes, as many as there is room for, and the rows before them only of what kind their
values are (`Query.select_shows_latest_nodes`).
-/

namespace CodeGraph

namespace Registry
open Recency
variable {n : Nat} {ks : List Registration} {k : Registration}

/-- A registry with room for `n` entries that has got these pairs one after the other. -/
def latest (n : Nat) (ks : List Registration) : Registry :=
  ⟨some n, (ks.reverse.take n).map fun k => (k.id, k)⟩

theorem ofCapacity_eq_latest (hn : 0 < n) : ofCapacity (some n) = latest n [] := by
  unfold ofCapacity latest
  rw [Option.filter_some, if_pos (decide_eq_true (Nat.ne_of_gt hn)), List.reverse_nil, List.take_nil,
    List.map_nil]

theorem lists_latest (hn : 0 < n) (h : (ks.map (·.id)).Nodup) :
    (latest n ks).Lists (ks.reverse.take n) where
  entries := rfl
  nodup := by
    rw [List.map_take, List.map_reverse]
    exact (List.nodup_reverse.2 h).sublist (List.take_sublist ..)
  within m hm := by
    cases hm
    exact List.length_take_le ..
  room h0 := by
    cases h0
    cases hn

theorem peek?_latest_of_new (hn : 0 < n) (h : ((ks ++ [k]).map (·.id)).Nodup) :
    (latest n ks).peek? k.id = none := by
  rw [List.map_append, List.nodup_append] at h
  refine (lists_latest hn h.1).peek?_of_missing fun r hr => ?_
  exact h.2.2 r.id (List.mem_map_of_mem (List.mem_reverse.1 (List.mem_of_mem_take hr))) k.id
    (List.mem_singleton_self _)

theorem register_latest (hn : 0 < n) (h : ((ks ++ [k]).map (·.id)).Nodup) :
    (latest n ks).register k = (k, latest n (ks ++ [k])) := by
  rw [register_of_none (peek?_latest_of_new hn h)]
  obtain ⟨m, rfl⟩ := Nat.exists_eq_succ_of_ne_zero (Nat.ne_of_gt hn)
  unfold latest
  congr 2
  show List.take (m + 1) _ = _
  rw [List.take_succ_cons, ← List.map_take, List.take_take, Nat.min_eq_left (Nat.le_succ m),
    List.reverse_concat, List.take_succ_cons, List.map_cons]

/-- If `new` are the last pairs, as many as there is room for, then they are the ones that are kept. -/
theorem peek?_latest {old new : List Registration} (hn : 0 < n)
    (hlen : new.length = min n (old ++ new).length) (h : ((old ++ new).map (·.id)).Nodup) :
    (∀ k ∈ new, (latest n (old ++ new)).peek? k.id = some k) ∧
      ∀ k ∈ old, (latest n (old ++ new)).peek? k.id = none := by
  have hkept : (old ++ new).reverse.take n = new.reverse := by
    rw [List.reverse_append]
    rw [List.length_append] at hlen
    -- the new pairs fill the registry, or there are no others
    rcases Nat.le_total n new.length with hle | hle
    · exact List.take_left' (by rw [List.length_reverse]; omega)
    · cases old with
      | nil =>
        rw [List.reverse_nil, List.append_nil]
        exact List.take_of_length_le (by rwa [List.length_reverse])
      | cons k old =>
        rw [List.length_cons] at hlen
        exact List.take_left' (by rw [List.length_reverse]; omega)
  have hlists := lists_latest hn h
  rw [hkept] at hlists
  rw [List.map_append, List.nodup_append] at h
  refine ⟨fun k hk => hlists.peek?_of_mem (List.mem_reverse.2 hk), fun k hk => ?_⟩
  refine hlists.peek?_of_missing fun r hr => ?_
  exact (h.2.2 k.id (List.mem_map_of_mem hk) r.id (List.mem_map_of_mem (List.mem_reverse.1 hr))).symm

end Registry

def Registration.reading (b : Bindings) (k : Registration) : Reading := ⟨k.node, b.view k.value⟩

theorem ScanAction.collects_concat (x : ScanAction) (l : Language) (vs : List Vertex) (v : Vertex) :
    x.collects l (vs ++ [v]) = x.collects l vs ++ ((l.read v).filter (·.satisfies x.accepts)).toList := by
  unfold collects
  rw [List.filterMap_append, List.filter_append, List.filterMap_cons, List.filterMap_nil]
  cases l.read v with
  | none => rfl
  | some r =>
    rw [Option.filter_some]
    dsimp only
    rw [List.filter_singleton]
    cases r.satisfies x.accepts <;> rfl

theorem Tree.identifier_map {ι κ : Type} (f : ι → κ) (t : Tree ι) : (t.map f).identifier = t.identifier := by
  cases t
  rfl

theorem Context.nodeFor?_of_faithful {c : Context} {k : Registration} (h : k.Faithful c)
    (hs : c.staged[k.id]? = none) : c.nodeFor? k.value = c.nodes k.id := by
  unfold nodeFor? nodes
  rw [h.owns.vertex?]
  show ((c.registry.peek? k.id).or c.staged[k.id]?).map _ = _
  rw [hs, Option.or_none]

namespace Table
variable {col : DataColumn}

theorem viewIn_ofColumn (c : Context) (name : String) (col : DataColumn) :
    (ofColumn name (.data col)).viewIn c =
      ⟨[col.name], col.cells.toList.map fun cell => [cell.textIn c]⟩ := by
  have hrows : (ofColumn name (.data col)).sheet.rows = col.cells.toList.map fun cell => [cell] := by
    refine List.ext_getElem ((length_rows_sheet _).trans (List.length_map _).symm) fun i hi hi' => ?_
    rw [List.length_map] at hi'
    simp only [sheet, List.getElem_map, List.getElem_range]
    show [(col.cells.toList[i]?).getD .null] = _
    rw [List.getElem?_eq_getElem hi', Option.getD_some]
  unfold viewIn
  rw [hrows, List.map_map]
  rfl

theorem project_ofColumn (b : Bindings) (col : DataColumn) :
    (ofColumn col.name (.data col)).project b [col.name] = .ok (ofColumn col.name (.data col)) := by
  have hcol : (ofColumn col.name (.data col)).column? col.name = some (.data col) := by
    show List.find? _ [Column.data col] = _
    rw [List.find?_singleton]
    exact if_pos (beq_self_eq_true col.name)
  show addColumn b (new col.name) _ >>= pure = _
  rw [hcol]
  rfl

end Table

namespace Scan
variable {l : Language} {n : Nat} {x : ScanAction} {done : List Vertex} {ks : List Registration}
  {col : DataColumn} {c c' : Context} {k : Registration} {v : Vertex}

/-- How far a scan for one action has come that has started from an empty registry with room for `n`
entries. The pairs `ks` are those of its matches. -/
structure Recent (l : Language) (n : Nat) (x : ScanAction) (done : List Vertex) (ks : List Registration)
    (col : DataColumn) (c : Context) : Prop where
  language : c.language = l
  fresh : c.language.Fresh
  unbuilt : c.bindings.Unbuilt
  registry : c.registry = .latest n ks
  unstaged : ∀ k ∈ ks, c.staged[k.id]? = none
  faithful : ∀ k ∈ ks, k.Faithful c
  read : ks.map (·.reading c.bindings) = x.collects l done
  name : col.name = x.name
  cells : col.cells.toList = ks.map fun k => .value k.value

namespace Recent

theorem map_id (h : Recent l n x done ks col c) : ks.map (·.id) = (x.collects l done).map Reading.id := by
  rw [← h.read, List.map_map]
  rfl

theorem nodup (h : Recent l n x done ks col c) (hn : (done.map (·.id)).Nodup) :
    (ks.map (·.id)).Nodup := by
  rw [h.map_id]
  exact ScanAction.nodup_collects hn

theorem nodup_concat (h : Recent l n x done ks col c)
    (hn : ((done ++ [k.node.vertex]).map (·.id)).Nodup) : ((ks ++ [k]).map (·.id)).Nodup := by
  rw [List.map_append, List.nodup_append] at hn ⊢
  refine ⟨h.nodup hn.1, List.nodup_singleton _, fun id hid => hn.2.2 id ?_⟩
  rw [h.map_id] at hid
  obtain ⟨r, hr, rfl⟩ := List.mem_map.1 hid
  obtain ⟨v, hv, hread⟩ := List.mem_filterMap.1 (List.mem_of_mem_filter hr)
  rw [Reading.id_of_read hread]
  exact List.mem_map_of_mem hv

theorem mono {done' : List Vertex} (h : Recent l n x done ks col c) (hg : c.Grows c')
    (hr : c'.registry = c.registry) (hs : ∀ id : VertexId, c.staged[id]? = none → c'.staged[id]? = none)
    (hd : x.collects l done' = x.collects l done) : Recent l n x done' ks col c' where
  language := hg.language.trans h.language
  fresh := by
    rw [hg.language]
    exact h.fresh
  unbuilt := hg.unbuilt h.unbuilt
  registry := hr.trans h.registry
  unstaged k hk := hs k.id (h.unstaged k hk)
  faithful k hk := (h.faithful k hk).mono hg
  read := by
    rw [hd, ← h.read]
    refine List.map_congr_left fun k hk => ?_
    rw [Registration.reading, Registration.reading, (h.faithful k hk).owns.view_mono hg.bindings]
  name := h.name
  cells := h.cells

theorem register (h : Recent l n x done ks col c) (hn : 0 < n) (hk : k.Faithful c)
    (hs : c.staged[k.id]? = none) (hnodup : ((ks ++ [k]).map (·.id)).Nodup)
    (hd : x.collects l (done ++ [v]) = x.collects l done ++ [k.reading c.bindings]) :
    Recent l n x (done ++ [v]) (ks ++ [k])
      (col.push c.bindings (.value (c.registry.register k).1.value)) (c.registering k) := by
  have hreg : c.registry.register k = (k, .latest n (ks ++ [k])) := by
    rw [h.registry]
    exact Registry.register_latest hn hnodup
  refine ⟨h.language, h.fresh, h.unbuilt, ?_, ?_, ?_, ?_, h.name, ?_⟩
  · exact congrArg Prod.snd hreg
  · exact List.forall_mem_append.2 ⟨h.unstaged, List.forall_mem_singleton.2 hs⟩
  · exact List.forall_mem_append.2 ⟨h.faithful, List.forall_mem_singleton.2 hk⟩
  · rw [hd, ← h.read, List.map_append]
    rfl
  · show (col.cells.push _).toList = _
    rw [Array.toList_push, h.cells, hreg, List.map_append]
    rfl

end Recent

theorem wp_answers_unregistered {actions : List ScanAction} (hp : c.registry.peek? k.id = none)
    (hk : c.bindings.Owns k.id k.value) :
    wp (answers actions k.value) (fun yes c' =>
      yes = actions.map (fun x => (k.reading c.bindings).satisfies x.accepts) ∧ c' = c.staging k)
      (c.staging k) := by
  have hfound : (c.staging k).nodeAt? k.id = some k.node := by
    rw [c.nodeAt?_staging, Context.nodes, hp]
    rfl
  have hfinds : ValuePredicate.Finds (· = c.staging k) k.node k.value := by
    refine Context.finds_of_touch (c := c.staging k) hk hfound (fun _ hc => hc ▸ .refl _) fun _ hc => ?_
    subst hc
    show { c.staging k with registry := (c.registry.touch? k.id).2 } = _
    rw [Registry.touch?, hp]
    rfl
  exact wp_answers_of_finds (fun _ hc => hc ▸ rfl) hfinds rfl

theorem wp_classify_recent (h : Recent l n x done ks col c) (hn : 0 < n)
    (hv : ((done ++ [v]).map (·.id)).Nodup) :
    wp (classify [x] [col] v) (fun columns c' => ∃ ks' col', columns = [col'] ∧
      Recent l n x (done ++ [v]) ks' col' c') c := by
  have hnext := x.collects_concat l done v
  refine wp_classify_of h.fresh h.unbuilt (fun hnone => ⟨ks, col, rfl, h.mono ?_ rfl (fun _ hid => hid) ?_⟩)
    fun built c₁ hg hreg hstaged hnode hfaith => ?_
  · exact .of_registry_eq rfl rfl rfl
  · rw [hnext, ← h.language, hnone]
    exact List.append_nil _
  · obtain rfl := hnode
    have hread : l.read built.node.vertex = some (built.reading c₁.bindings) := by
      rw [← h.language, ← hg.language]
      exact hfaith
    rw [hread, Option.filter_some] at hnext
    -- no match of this vertex came before, so it is not registered while the predicates are asked
    have hnew := h.nodup_concat hv
    have hpeek : c₁.registry.peek? built.id = none := by
      rw [hreg, h.registry]
      exact Registry.peek?_latest_of_new hn hnew
    refine wp_mono (wp_answers_unregistered hpeek hfaith.owns) fun yes c₂ hyes => ?_
    obtain ⟨rfl, rfl⟩ := hyes
    rw [List.map_singleton]
    have hgrows : c₁.Grows ((c₁.staging built).unstaging built.id) := .of_registry_eq rfl rfl rfl
    have hmono {done' : List Vertex} (hd : x.collects l done' = x.collects l done) :
        Recent l n x done' ks col ((c₁.staging built).unstaging built.id) :=
      h.mono (hg.trans hgrows) hreg (fun id hid => by rw [Context.staged_unstaging, hstaged, hid, ite_self]) hd
    cases hm : (built.reading c₁.bindings).satisfies x.accepts with
    | true =>
      rw [hm, if_pos rfl] at hnext
      have hself := c₁.staged_unstaging built built.id
      rw [if_pos rfl] at hself
      exact ⟨ks ++ [built], _, rfl, (hmono rfl).register hn (hfaith.mono hgrows) hself hnew hnext⟩
    | false =>
      rw [hm, if_neg Bool.false_ne_true] at hnext
      exact ⟨ks, col, rfl, hmono (hnext.trans (List.append_nil _))⟩

/-- Of the matches the last ones, as many as there is room for, are shown by their nodes. -/
theorem Recent.exists_texts (h : Recent l n x done ks col c) (hn : 0 < n)
    (hd : (done.map (·.id)).Nodup) :
    ∃ old new : List Reading, x.collects l done = old ++ new ∧ new.length = min n (old ++ new).length ∧
      ks.map (fun k => (Cell.value k.value).textIn c) =
        old.map (·.value.identifier) ++ new.map (·.node.text) := by
  obtain ⟨old, new, rfl, hlen⟩ : ∃ old new, ks = old ++ new ∧ new.length = min n (old ++ new).length :=
    ⟨ks.take (ks.length - min n ks.length), ks.drop (ks.length - min n ks.length),
      (List.take_append_drop ..).symm, by rw [List.take_append_drop, List.length_drop]; omega⟩
  obtain ⟨hnew, hold⟩ := Registry.peek?_latest hn hlen (h.nodup hd)
  rw [← h.registry] at hnew hold
  have hshown : ∀ k ∈ old ++ new, (Cell.value k.value).textIn c =
      ((c.nodes k.id).map GraphNode.text).getD k.value.identifier := fun k hk => by
    rw [Cell.textIn, Context.nodeFor?_of_faithful (h.faithful k hk) (h.unstaged k hk)]
  refine ⟨old.map (·.reading c.bindings), new.map (·.reading c.bindings), ?_, ?_, ?_⟩
  · rw [← h.read, List.map_append]
  · simpa using hlen
  · rw [List.map_append, List.map_map, List.map_map]
    refine congrArg₂ (· ++ ·) (List.map_congr_left fun k hk => ?_) (List.map_congr_left fun k hk => ?_)
    · rw [hshown k (List.mem_append_left _ hk), Context.nodes, hold k hk]
      exact (Tree.identifier_map ..).symm
    · rw [hshown k (List.mem_append_right _ hk), Context.nodes, hnew k hk]
      rfl

variable {a : App} {limit : Nat} {w : World}

theorem wpE_run_recent (hl : w.graph.language.Fresh) (hu : w.graph.bindings.Unbuilt) (hn : 0 < n)
    (hr : w.graph.registry = .ofCapacity (some n))
    (hids : ((served a.store limit 0).map (·.id)).Nodup) :
    wpE (Scan.run a limit [x]) (fun tables w' => ∃ ks col,
      Recent w.graph.language n x (served a.store limit 0) ks col w'.graph ∧
      ∀ y, tables.get? y = if y = x.name then some (.ofColumn x.name (.data col)) else none) Never w := by
  have hstart : Recent w.graph.language n x [] [] (.new x.name true) w.graph :=
    ⟨rfl, hl, hu, hr.trans (Registry.ofCapacity_eq_latest hn), fun _ hk => absurd hk List.not_mem_nil,
      fun _ hk => absurd hk List.not_mem_nil, rfl, rfl, rfl⟩
  unfold Scan.run
  rw [wpE_bind, wpE_lift]
  refine wp_mono (wp_pages (fun done columns c => (done.map (·.id)).Nodup →
    ∃ ks col, columns = [col] ∧ Recent w.graph.language n x done ks col c)
    (fun done columns c h hd => ?_) (fun done v columns c _ h => ?_)
    fun _ => ⟨[], _, rfl, hstart⟩) fun columns w' h => ?_
  · obtain ⟨ks, col, hcol, hks⟩ := h hd
    exact ⟨ks, col, hcol, hks.mono (.of_registry_eq rfl rfl rfl) rfl (fun _ hid => hid) rfl⟩
  · intro hd
    obtain ⟨ks, col, rfl, hks⟩ := h (hd.sublist ((List.sublist_append_left done [v]).map _))
    exact wp_classify_recent hks hn hd
  · obtain ⟨ks, col, rfl, hks⟩ := h hids
    have htables : tablesOf [col] =
        .ok ⟨TableSet.empty.tables.insert x.name (.ofColumn x.name (.data col))⟩ := by
      rw [← hks.name]
      exact congrArg (· >>= pure) (TableSet.add_of_none (TableSet.get?_empty col.name))
    rw [htables, wpE_except]
    exact ⟨ks, col, hks, TableSet.get?_insert .empty (.ofColumn x.name (.data col))⟩

end Scan

namespace Query
variable {o : DatabaseOptions} {d : GraphDump} {s : InMemoryStore} {a : App} {w : World} {n : Nat} {q : Query}
  {names : List String} {E : Error → Query → World → Prop} {Q : Unit → Query → World → Prop}

theorem wpS_select_of_prepare
    (h : wpS (prepare a) (fun _ q' w' => q'.prepared = true ∧ wpS (select a names) Q E q' w') E q w) :
    wpS (select a names) Q E q w := by
  unfold select
  rw [wpS_bind]
  refine wpS_mono h (fun _ q' w' hq => ?_) fun _ _ _ he => he
  obtain ⟨hp, hs⟩ := hq
  unfold select at hs
  rwa [wpS_bind, wpS_prepare_of_prepared hp] at hs

theorem wpS_source_select (ha : App.new o s.toStore = .ok a) (hd : InMemoryStore.Holds d s)
    (hl : w.graph.language.Fresh) (hu : w.graph.bindings.Unbuilt) (hn : 0 < n)
    (hr : w.graph.registry = .ofCapacity (some n)) (x : ScanAction) :
    wpS (do source x.toSource; select a [x.name]) (fun _ q w' => ∃ ks col,
      Scan.Recent w.graph.language n x d.vertices ks col w'.graph ∧
        q.result = some (.ofColumn x.name (.data col))) NeverS empty w := by
  have hids : ((Scan.served a.store a.batchSize 0).map (·.id)).Nodup := by
    rw [hd.served_eq ha]
    exact hd.nodup_ids
  have hrecorded := recorded_empty.record (s := x.toSource) List.not_mem_nil
  rw [wpS_bind, recorded_empty.wpS_source rfl List.not_mem_nil]
  refine wpS_select_of_prepare (wpS_of_never
    (hrecorded.wpS_prepare rfl (Scan.wpE_run_recent (x := x) hl hu hn hr hids)) fun _ q w₁ hq => ?_)
  obtain ⟨scanned, tables, ⟨ks, col, hks, hget⟩, rfl, -, htables, -⟩ := hq
  rw [hd.served_eq ha] at hks
  have honly : tables.onlyTable = .ok (.ofColumn x.name (.data col)) :=
    TableSet.onlyTable_of_get? fun y => (htables y).trans (hget y)
  have hproject : (Table.ofColumn x.name (.data col)).project w₁.graph.bindings [x.name] =
      .ok (.ofColumn x.name (.data col)) := hks.name ▸ Table.project_ofColumn w₁.graph.bindings col
  refine ⟨rfl, (wpS_select rfl).2 ?_⟩
  dsimp only
  rw [honly]
  dsimp only
  rw [hproject]
  exact ⟨ks, col, hks, rfl⟩

/-- A query for one source, from an empty registry with room for `n` entries, gives a row to each match
in the order of the listing. However often it is looked at, the last rows, as many as there is room for,
show the nodes of their vertices, and the rows before them the kinds of their values. -/
theorem select_shows_latest_nodes (ha : App.new o s.toStore = .ok a) (hd : InMemoryStore.Holds d s)
    (hl : w.graph.language.Fresh) (hu : w.graph.bindings.Unbuilt) (hn : 0 < n)
    (hr : w.graph.registry = .ofCapacity (some n)) (x : ScanAction) :
    ∃ q w' old new, (empty.run (do source x.toSource; select a [x.name])).run w = ((.ok (), q), w') ∧
      x.collects w.graph.language d.vertices = old ++ new ∧ new.length = min n (old ++ new).length ∧
      ∀ looks : List Look, ∃ w'', (looks.mapM (Look.run q)).run.run w' =
        (.ok (looks.map (·.shown ⟨[x.name],
          old.map (fun r => [r.value.identifier]) ++ new.map fun r => [r.node.text]⟩)), w'') := by
  obtain ⟨_, q, w', hrun, ks, col, hks, hq⟩ := exists_of_wpS (wpS_source_select ha hd hl hu hn hr x)
  obtain ⟨old, new, hcollects, hlen, htexts⟩ := hks.exists_texts hn hd.nodup_ids
  have hview : (Table.ofColumn x.name (.data col)).viewIn w'.graph = ⟨[x.name],
      old.map (fun r => [r.value.identifier]) ++ new.map fun r => [r.node.text]⟩ := by
    have hrows := congrArg (List.map fun text => [text]) htexts
    rw [List.map_map, List.map_append, List.map_map, List.map_map] at hrows
    rw [Table.viewIn_ofColumn, hks.name, hks.cells, List.map_map]
    exact congrArg (TableView.mk [x.name]) hrows
  refine ⟨q, w', old, new, hrun, hcollects, hlen, fun looks => ?_⟩
  rw [← hview]
  obtain ⟨_, w'', hlooks, rfl, -⟩ := exists_of_wpE
    (wpE_looks (Table.built_ofColumn x.name (.data col)).wellFormed hq looks w')
  exact ⟨w'', hlooks⟩

theorem select_shows_latest_nodes_mutualFiles :
    ∃ s q w' w'', InMemoryStore.Holds mutualFiles s ∧
      (empty.run (do source ⟨"a", .data, .any⟩; select ⟨⟨.default, ⟨some 1⟩⟩, s.toStore⟩ ["a"])).run
        (.new ⟨⟨.default, ⟨some 1⟩⟩, s.toStore⟩ ⟨"plain", [], []⟩) = ((.ok (), q), w') ∧
      ([Look.output, Look.output].mapM (Look.run q)).run.run w' =
        (.ok [.inl ⟨["a"], [["file"], ["()"]]⟩, .inl ⟨["a"], [["file"], ["()"]]⟩], w'') := by
  obtain ⟨s, hs⟩ := InMemoryStore.exists_holds (d := mutualFiles) (by decide) (by decide)
  obtain ⟨q, w', old, new, hrun, hcollects, hlen, hlooks⟩ :=
    @select_shows_latest_nodes ⟨.default, ⟨some 1⟩⟩ mutualFiles s ⟨⟨.default, ⟨some 1⟩⟩, s.toStore⟩
      (.new ⟨⟨.default, ⟨some 1⟩⟩, s.toStore⟩ ⟨"plain", [], []⟩) 1 rfl hs
      (fun _ h => absurd h List.not_mem_nil) (fun _ _ => Std.HashMap.getElem?_empty) Nat.one_pos rfl
      ⟨"a", .any⟩
  obtain ⟨w'', hlooks⟩ := hlooks [.output, .output]
  refine ⟨s, q, w', w'', hs, hrun, ?_⟩
  have htwo : (old ++ new).length = 2 := by
    rw [← hcollects]
    rfl
  rw [htwo] at hlen
  rw [List.length_append, hlen] at htwo
  obtain ⟨r₂, rfl⟩ := List.length_eq_one_iff.1 hlen
  obtain ⟨r₁, rfl⟩ := List.length_eq_one_iff.1 (Nat.succ.inj htwo)
  have hshown := congrArg (List.map fun r : Reading => (r.value.identifier, r.node.text)) hcollects
  change [("file", "()"), ("file", "()")] = [(r₁.value.identifier, _), (_, r₂.node.text)] at hshown
  simp only [List.cons.injEq, Prod.mk.injEq] at hshown
  obtain ⟨⟨h₁, -⟩, ⟨-, h₂⟩, -⟩ := hshown
  rw [hlooks, List.map_singleton, List.map_singleton, ← h₁, ← h₂]
  rfl

end Query

end CodeGraph
