import CodeGraph.Proofs.FlowRun
import CodeGraph.Proofs.QueryState

/-!
# The answers of a reachability query

A query asks for two sources of data and perhaps a barrier, lets a search find the ways from the one
to the other and selects both ends and the way. Recording, preparing, searching and selecting are
each shown to go through and what they leave is stated; put together, on a graph in memory the rows
of the result are one to each pair that the graph itself says there is (`Query.reaching_answers`).
-/

namespace CodeGraph

namespace Query
variable {a : App} {q : Query} {w : World} {k : Catalog} {E : Error → Query → World → Prop}

/-! ### Recording and preparing -/

theorem Recorded.wpS_source (h : q.Recorded) (hp : q.prepared = false) {s : Source}
    (hnew : s.name ∉ q.aliases) {Q : Unit → Query → World → Prop} :
    wpS (source s) Q E q w ↔ Q () (q.record s) w := by
  rw [Query.wpS_source, h.withSource_eq hp, if_neg hnew]

theorem prepared_record {s : Source} : (q.record s).prepared = q.prepared := by
  unfold record
  cases s.mode <;> rfl

theorem aliases_record {s : Source} : (q.record s).aliases = q.aliases ++ [s.name] := by
  unfold record
  cases s.mode <;> rfl

/-- The tables of the sources of a query, when the store has these vertices. -/
structure Tabled (q : Query) (b : Bindings) (l : Language) (vs : List Vertex) (tables : TableSet) :
    Prop where
  data : ∀ x ∈ q.actions, ∃ col : DataColumn,
    tables.get? x.name = some (.ofColumn x.name (.data col)) ∧ col.Lists b (x.collects l vs)
  predicate : ∀ name t, q.pending.get? name = some t → tables.get? name = some t
  only : ∀ name t, tables.get? name = some t → name ∈ q.aliases

theorem wpE_scan_tabulates (hn : (q.actions.map (·.name)).Nodup) (hw : w.graph.Faithful k)
    (hserved : ∀ v ∈ Scan.served a.store a.batchSize 0, k.find v.id = some v) :
    wpE (q.scan a) (fun tables w' => w.graph.Grows w'.graph ∧ w'.graph.Faithful k ∧
      Scan.Tabulates w'.graph.bindings w.graph.language (Scan.served a.store a.batchSize 0) q.actions
        tables) Never w :=
  wpE_of_never (wpE_scan_kept hn hw hserved) fun _ _ h => ⟨h.1, h.2.1, h.2.2.1⟩

theorem Recorded.wpS_prepare_tabled (h : q.Recorded) (hp : q.prepared = false)
    (hw : w.graph.Faithful k)
    (hserved : ∀ v ∈ Scan.served a.store a.batchSize 0, k.find v.id = some v) :
    wpS (prepare a) (fun _ q' w' => w.graph.Grows w'.graph ∧ w'.graph.Faithful k ∧
      q'.prepared = true ∧ q.Tabled w'.graph.bindings w.graph.language
        (Scan.served a.store a.batchSize 0) q'.tables) NeverS q w := by
  refine wpS_of_never (h.wpS_prepare hp (wpE_scan_tabulates h.nodup_actions hw hserved))
    fun _ q' w' hq => ?_
  obtain ⟨scanned, tables, ⟨hg, hf, htab⟩, rfl, -, hget, honly⟩ := hq
  refine ⟨hg, hf, rfl, fun x hx => ?_, fun name t ht => ?_, fun name t ht => (honly name).1 ⟨t, ht⟩⟩
  · obtain ⟨col, hcol, -, hlists⟩ := htab.column x hx
    refine ⟨col, ?_, hlists⟩
    have hnone : q.pending.get? x.name = none := by
      cases hpend : q.pending.get? x.name with
      | none => rfl
      | some t =>
        exact absurd (TableSet.mem_aliases_iff.2 ⟨t, hpend⟩)
          (h.disjoint (List.mem_map_of_mem hx))
    rw [hget, hnone, hcol]
    rfl
  · rw [hget, ht]
    rfl

theorem mem_actions_record {s : Source} {x : ScanAction} (hx : x ∈ q.actions) :
    x ∈ (q.record s).actions := by
  unfold record
  cases s.mode with
  | data => exact List.mem_append_left _ hx
  | predicate => exact hx

theorem Tabled.tells {s : Source} {b : Bindings} {l : Language} {vs : List Vertex}
    {tables : TableSet} (h : (q.record s).Tabled b l vs tables) (hids : (vs.map (·.id)).Nodup) :
    ∃ col, tables.get? s.name = some (.ofColumn s.name col) ∧
      col.Tells (.ofListing vs) l (·.satisfies s.accepts) := by
  unfold record at h
  cases hm : s.mode with
  | data =>
    rw [hm] at h
    obtain ⟨col, hcol, hlists⟩ := h.data ⟨s.name, s.accepts⟩
      (List.mem_append_right _ (List.mem_singleton.2 rfl))
    exact ⟨.data col, hcol, Column.tells_data hids hlists⟩
  | predicate =>
    rw [hm] at h
    refine ⟨.predicate s.name s.accepts, h.predicate s.name _ ?_,
      Column.tells_predicate s.name s.accepts⟩
    exact (TableSet.get?_insert q.pending (.ofColumn s.name _) s.name).trans (if_pos rfl)

def blocked (bar : Option Source) (r : Reading) : Bool := bar.any fun s => r.satisfies s.accepts

theorem Tabled.tells_barrier {bar : Option Source} {b : Bindings} {l : Language} {vs : List Vertex}
    {tables : TableSet} (h : (bar.elim q q.record).Tabled b l vs tables)
    (hids : (vs.map (·.id)).Nodup) :
    ∃ (t : Option Table) (col : Column), (bar.map (·.name)).map tables.get? = t.map some ∧
      t.elim (.ok Flow.noBarrier) Table.onlyColumn = .ok col ∧
      col.Tells (.ofListing vs) l (blocked bar) := by
  cases bar with
  | none => exact ⟨none, Flow.noBarrier, rfl, rfl, Column.tells_predicate _ .none⟩
  | some s =>
    obtain ⟨col, hcol, htells⟩ := Tabled.tells h hids
    exact ⟨some (.ofColumn s.name col), col, congrArg some hcol, rfl, htells⟩

/-! ### A flow and a selection -/

def drop (q : Query) (name : String) : Query := { q with tables := ⟨q.tables.tables.erase name⟩ }

theorem get?_drop (q : Query) (name other : String) :
    (q.drop name).tables.get? other = if other = name then none else q.tables.get? other :=
  TableSet.get?_erase ..

theorem get?_elim_drop (q : Query) (o : Option String) (other : String) :
    (o.elim q q.drop).tables.get? other =
      if other ∈ o.toList then none else q.tables.get? other := by
  cases o with
  | none => rw [if_neg (by simp)]; rfl
  | some name =>
    show (q.drop name).tables.get? other = _
    rw [get?_drop]
    simp only [Option.toList_some, List.mem_singleton]

theorem wpS_forM_requireTable {o : Option String} {t : Option Table}
    (h : o.map q.tables.get? = t.map some) {Q : Unit → Query → World → Prop} :
    wpS (o.forM requireTable) Q E q w ↔ Q () q w := by
  cases o with
  | none => exact Iff.rfl
  | some name =>
    obtain ⟨t, rfl, ht⟩ := Option.map_eq_some_iff.1 h.symm
    show wpS (requireTable name) Q E q w ↔ _
    rw [wpS_requireTable, ← ht]

theorem wpS_mapM_takeTable {o : Option String} {t : Option Table}
    (h : o.map q.tables.get? = t.map some) {Q : Option Table → Query → World → Prop} :
    wpS (o.mapM takeTable) Q E q w ↔ Q t (o.elim q q.drop) w := by
  cases o with
  | none =>
    rw [Option.map_eq_none_iff.1 h.symm]
    exact Iff.rfl
  | some name =>
    obtain ⟨t, rfl, ht⟩ := Option.map_eq_some_iff.1 h.symm
    show wpS (takeTable name >>= fun t => pure (some t)) Q E q w ↔ _
    rw [wpS_bind, wpS_takeTable, ← ht]
    exact Iff.rfl

def without (q : Query) (f : FlowAliases) : Query :=
  f.barrier.elim ((q.drop f.source).drop f.sink) ((q.drop f.source).drop f.sink).drop

theorem prepared_without (q : Query) (f : FlowAliases) : (q.without f).prepared = q.prepared := by
  unfold without
  cases f.barrier <;> rfl

theorem get?_without {f : FlowAliases} (honly : ∀ name t, q.tables.get? name = some t →
    name ∈ f.source :: f.sink :: f.barrier.toList) (name : String) :
    (q.without f).tables.get? name = none := by
  unfold without
  rw [get?_elim_drop, get?_drop, get?_drop]
  by_cases hs : name = f.source
  · simp [hs]
  by_cases hk : name = f.sink
  · simp [hk]
  rw [if_neg hk, if_neg hs]
  split
  · rfl
  · next hb =>
    cases hg : q.tables.get? name with
    | none => rfl
    | some t =>
      have hm := honly name t hg
      rw [List.mem_cons, List.mem_cons] at hm
      exact absurd hm (by tauto)

theorem wpS_takeTables {f : FlowAliases} {t₁ t₂ : Table} {t₃ : Option Table} {α : Type}
    (hn : f.names.Nodup) (h₁ : q.tables.get? f.source = some t₁)
    (h₂ : q.tables.get? f.sink = some t₂) (h₃ : f.barrier.map q.tables.get? = t₃.map some)
    {m : Table → Table → Option Table → StageM α} {Q : α → Query → World → Prop} :
    wpS (do
      let source ← takeTable f.source
      let sink ← takeTable f.sink
      let barrier ← f.barrier.mapM takeTable
      m source sink barrier) Q E q w ↔ wpS (m t₁ t₂ t₃) Q E (q.without f) w := by
  have hd := FlowAliases.distinct hn
  have h₂' : (q.drop f.source).tables.get? f.sink = some t₂ := by
    rw [get?_drop, if_neg hd.sink]
    exact h₂
  have h₃' : f.barrier.map ((q.drop f.source).drop f.sink).tables.get? = t₃.map some := by
    rw [← h₃]
    refine Option.map_congr fun name hname => ?_
    obtain ⟨hs, hk, -⟩ := hd.barrier name hname
    rw [get?_drop, get?_drop, if_neg hk, if_neg hs]
  rw [wpS_bind, wpS_takeTable, h₁]
  show wpS (_ >>= _) _ _ (q.drop f.source) _ ↔ _
  rw [wpS_bind, wpS_takeTable, h₂']
  show wpS (_ >>= _) _ _ ((q.drop f.source).drop f.sink) _ ↔ _
  rw [wpS_bind, wpS_mapM_takeTable h₃']
  exact Iff.rfl

/-- A flow of all live tables leaves only its own table. -/
theorem wpS_rest_flow {f : Flow} {t₁ t₂ : Table} {t₃ : Option Table} {P : Table → Context → Prop}
    (hn : f.names.Nodup) (h₁ : q.tables.get? f.source = some t₁)
    (h₂ : q.tables.get? f.sink = some t₂) (h₃ : f.barrier.map q.tables.get? = t₃.map some)
    (honly : ∀ name t, q.tables.get? name = some t →
      name ∈ f.source :: f.sink :: f.barrier.toList)
    (hf : wpE (f.apply t₁ t₂ t₃) (fun t w' => P t w'.graph) Never w) :
    wpS (Call.flow f).rest (fun _ q' w' => q'.prepared = q.prepared ∧ ∃ t, P t w'.graph ∧
      ∀ name, q'.tables.get? name = if name = f.name then some (t.renamed f.name) else none)
      NeverS q w := by
  unfold Call.rest
  rw [wpS_bind, wpS_requireTable, h₁]
  show wpS (_ >>= _) _ _ _ _
  rw [wpS_bind, wpS_requireTable, h₂]
  show wpS (_ >>= _) _ _ _ _
  rw [wpS_bind, wpS_forM_requireTable h₃, wpS_takeTables hn h₁ h₂ h₃, wpS_bind, wpS_ofQueryM]
  refine wpE_mono hf (fun t w' ht => ?_) fun _ _ h => h
  rw [wpS_bind, wpS_giveTable, get?_without honly]
  refine ⟨prepared_without q f.toFlowAliases, t, ht, fun name => ?_⟩
  refine (TableSet.get?_insert (q.without f.toFlowAliases).tables (t.renamed f.name) name).trans ?_
  rw [get?_without honly]
  rfl

theorem wpS_rest_select {X : Type} {t : Table} {fields chosen : List (String × (X → Cell Identity))}
    {xs : List X} (h : q.tables.onlyTable = .ok t) (ht : t.Shows w.graph.bindings fields xs)
    (hn : (fields.map (·.1)).Nodup) (hsub : chosen ⊆ fields) (hc : (chosen.map (·.1)).Nodup) :
    wpS (Call.select (chosen.map (·.1))).rest (fun _ q' w' => ∃ t', q'.result = some t' ∧
      t'.Shows w'.graph.bindings chosen xs) NeverS q w := by
  obtain ⟨t', hproject, hshows⟩ := ht.project hn hsub hc
  unfold Call.rest
  rw [wpS_bind, wpS_query, wpS_bind, wpS_except, h]
  show wpS (_ >>= _) _ _ _ _
  rw [wpS_bind, wpS_update, wpS_bind, wpS_ofWorldM, wp_bindings, wpS_bind, wpS_except, hproject]
  exact ⟨t', rfl, hshows⟩

end Query

/-! ### The query -/

/-- A graph as a search sees it that follows the edges of one label, or of all, to the vertices that
stand for something that is not blocked. -/
def GraphDump.terrain (d : GraphDump) (l : Language) (f : Reachability) (blocks : Reading → Bool) :
    Terrain where
  next id := (d.edges.filter fun e => e.tail == id && f.label.all (e.label == ·)).map (·.head)
  enter id := ((Catalog.ofListing d.vertices).read l id).filter fun r => !blocks r
  id_of_enter _ _ h := (Catalog.read_eq_some (Option.filter_eq_some_iff.1 h).1).1
  maxDepth := f.maxDepth

def ScanAction.toSource (x : ScanAction) : Source := ⟨x.name, .data, x.accepts⟩

namespace Query
variable {o : DatabaseOptions} {d : GraphDump} {s : InMemoryStore} {a : App} {w : World}
  {src snk : ScanAction} {bar : Option Source} {f : Reachability} {name : String}

/-- Looks for the ways from one source to another that a barrier does not block. -/
def reaching (a : App) (src snk : ScanAction) (bar : Option Source) (f : Reachability)
    (name : String) : StageM Unit := do
  source src.toSource
  source snk.toSource
  bar.forM source
  flow a ⟨⟨src.name, snk.name, bar.map (·.name), name⟩, f.algorithm a⟩
  select a [src.name, snk.name, name]

def reported (src snk name : String) : List (String × (Reading × Trail → Cell Identity)) :=
  [(src, fun x => .value x.1.value), (snk, fun x => .value x.2.last.value),
    (name, fun x => .path (x.2.path.map (·.value)))]

def reachingAliases (src snk : ScanAction) (bar : Option Source) (name : String) : FlowAliases :=
  ⟨src.name, snk.name, bar.map (·.name), name⟩

def withEnds (src snk : ScanAction) : Query := (empty.record src.toSource).record snk.toSource

theorem aliases_withEnds (src snk : ScanAction) :
    (withEnds src snk).aliases = [src.name, snk.name] := by
  unfold withEnds
  rw [aliases_record, aliases_record]
  rfl

def withSources (src snk : ScanAction) (bar : Option Source) : Query :=
  bar.elim (withEnds src snk) (withEnds src snk).record

theorem new_withEnds (hn : (reachingAliases src snk bar name).names.Nodup) :
    snk.name ∉ (empty.record src.toSource).aliases ∧
      ∀ b, bar = some b → b.name ∉ (withEnds src snk).aliases := by
  obtain ⟨hks, -, -, hbar⟩ := FlowAliases.distinct hn
  refine ⟨?_, fun b hb => ?_⟩
  · rw [aliases_record]
    exact fun hm => hks (List.mem_singleton.1 hm)
  · obtain ⟨hns, hnk, -⟩ := hbar b.name (by rw [hb]; rfl)
    rw [aliases_withEnds, List.mem_cons, List.mem_singleton]
    rintro (he | he)
    · exact hns he
    · exact hnk he

theorem recorded_withEnds (hsnk : snk.name ∉ (empty.record src.toSource).aliases) :
    (withEnds src snk).Recorded :=
  (recorded_empty.record List.not_mem_nil).record hsnk

theorem recorded_withSources (hn : (reachingAliases src snk bar name).names.Nodup) :
    (withSources src snk bar).Recorded := by
  obtain ⟨hsnk, hb⟩ := new_withEnds hn
  have hr := recorded_withEnds hsnk
  cases bar with
  | none => exact hr
  | some b => exact hr.record (hb b rfl)

theorem prepared_withSources (src snk : ScanAction) (bar : Option Source) :
    (withSources src snk bar).prepared = false := by
  cases bar with
  | none => rfl
  | some b => exact prepared_record

theorem wpS_sources (hn : (reachingAliases src snk bar name).names.Nodup) {α : Type}
    {m : StageM α} {Q : α → Query → World → Prop} {E : Error → Query → World → Prop} :
    wpS (do
      source src.toSource
      source snk.toSource
      bar.forM source
      m) Q E empty w ↔ wpS m Q E (withSources src snk bar) w := by
  obtain ⟨hsnk, hb⟩ := new_withEnds hn
  rw [wpS_bind, recorded_empty.wpS_source rfl List.not_mem_nil, wpS_bind,
    (recorded_empty.record List.not_mem_nil).wpS_source rfl hsnk, wpS_bind]
  cases bar with
  | none => exact Iff.rfl
  | some b => exact (recorded_withEnds hsnk).wpS_source rfl (hb b rfl)

theorem mem_actions_withSources (src snk : ScanAction) (bar : Option Source) :
    src ∈ (withSources src snk bar).actions ∧ snk ∈ (withSources src snk bar).actions := by
  have hsrc : src ∈ (withEnds src snk).actions := List.mem_cons_self ..
  have hsnk : snk ∈ (withEnds src snk).actions := List.mem_cons_of_mem _ (List.mem_singleton.2 rfl)
  cases bar with
  | none => exact ⟨hsrc, hsnk⟩
  | some b => exact ⟨mem_actions_record hsrc, mem_actions_record hsnk⟩

/-- The search that the query comes to when its tables have been made. -/
theorem exists_search (ha : App.new o s.toStore = .ok a) (hd : InMemoryStore.Holds d s)
    (hn : (reachingAliases src snk bar name).names.Nodup) {b : Bindings} {l : Language}
    {tables : TableSet} (h : (withSources src snk bar).Tabled b l d.vertices tables)
    (f : Reachability) :
    ∃ (x : Search) (t₂ : Table) (t₃ : Option Table),
      x.toFlow = ⟨reachingAliases src snk bar name, f.algorithm a⟩ ∧
      x.catalog = .ofListing d.vertices ∧ x.language = l ∧
      x.terrain = d.terrain l f (blocked bar) ∧ x.accepts = (·.satisfies snk.accepts) ∧
      tables.get? snk.name = some t₂ ∧ (bar.map (·.name)).map tables.get? = t₃.map some ∧
      t₂.onlyColumn = .ok x.sink ∧
      t₃.elim (.ok Flow.noBarrier) Table.onlyColumn = .ok x.barrier := by
  have hids := hd.nodup_ids
  obtain ⟨sink, hsink, hlists⟩ := h.data snk (mem_actions_withSources src snk bar).2
  obtain ⟨t₃, barrier, hbar, hcol, htells⟩ := Tabled.tells_barrier h hids
  have hstore : a.store = s.toStore := App.store_eq ha
  let x : Search := {
    app := a
    flow := f
    catalog := .ofListing d.vertices
    language := l
    next := (d.terrain l f (blocked bar)).next
    sink := .data sink
    barrier
    accepts := (·.satisfies snk.accepts)
    blocks := blocked bar
    aliases := reachingAliases src snk bar name
    vertex_eq id := by rw [hstore]; exact congrArg Except.ok (hd.vertex?_eq id)
    outEdges_eq id := ⟨s.outEdges id f.label, by rw [hstore]; rfl, by rw [hd.outEdges_eq]; rfl⟩
    sink_tells := Column.tells_data hids hlists
    barrier_tells := htells
    names := hn }
  exact ⟨x, _, t₃, rfl, rfl, rfl, rfl, rfl, hsink, hbar, rfl, hcol⟩

theorem aliases_withSources (src snk : ScanAction) (bar : Option Source) :
    (withSources src snk bar).aliases = src.name :: snk.name :: (bar.map (·.name)).toList := by
  cases bar with
  | none => exact aliases_withEnds src snk
  | some b =>
    refine aliases_record.trans ?_
    rw [aliases_withEnds]
    rfl

theorem reported_subset (src snk : ScanAction) (bar : Option Source) (name : String) :
    reported src.name snk.name name ⊆ (reachingAliases src snk bar name).fields := by
  intro x hx
  unfold FlowAliases.fields
  simp only [reported, List.mem_cons, List.not_mem_nil, or_false] at hx
  rcases hx with rfl | rfl | rfl
  · exact List.mem_cons_self ..
  · exact List.mem_cons_of_mem _ (List.mem_cons_self ..)
  · exact List.mem_cons_of_mem _ (List.mem_cons_of_mem _ (List.mem_append_right _ (List.mem_singleton.2 rfl)))

theorem nodup_reported (hn : (reachingAliases src snk bar name).names.Nodup) :
    ((reported src.name snk.name name).map (·.1)).Nodup := by
  obtain ⟨hks, hms, hmk, -⟩ := FlowAliases.distinct hn
  show [src.name, snk.name, name].Nodup
  simp only [List.nodup_cons, List.mem_cons, List.not_mem_nil, or_false, not_or, not_false_eq_true,
    List.nodup_nil, and_true]
  exact ⟨⟨Ne.symm hks, Ne.symm hms⟩, Ne.symm hmk⟩

theorem wpS_run_flow (ha : App.new o s.toStore = .ok a) (hd : InMemoryStore.Holds d s)
    (hw : w.graph.Faithful (.ofListing d.vertices))
    (hn : (reachingAliases src snk bar name).names.Nodup) :
    wpS ((Call.flow ⟨reachingAliases src snk bar name, f.algorithm a⟩).run a)
      (fun _ q w' => q.prepared = true ∧ ∃ t pairs,
        (∀ n, q.tables.get? n = if n = name then some t else none) ∧
        t.Shows w'.graph.bindings (reachingAliases src snk bar name).fields pairs ∧
        (d.terrain w.graph.language f (blocked bar)).Answers
          (src.collects w.graph.language d.vertices) (·.satisfies snk.accepts) pairs)
      NeverS (withSources src snk bar) w := by
  have hids := hd.nodup_ids
  have hserved := hd.served_eq ha
  rw [Call.run_of_prepares rfl, wpS_bind]
  refine wpS_of_never ((recorded_withSources hn).wpS_prepare_tabled (prepared_withSources ..) hw
    fun v hv => Catalog.find_ofListing hids (by rw [← hserved]; exact hv)) fun _ q₁ w₁ h₁ => ?_
  rw [hserved] at h₁
  obtain ⟨hg, hf, hp, htabled⟩ := h₁
  obtain ⟨x, t₂, t₃, hflow, hcat, hlang, hterrain, hacc, h₂, h₃, hsink, hbar⟩ :=
    exists_search ha hd hn htabled f
  obtain ⟨col, h₁, hlists⟩ := htabled.data src (mem_actions_withSources src snk bar).1
  have hready : x.Ready w₁ := ⟨by rw [hcat]; exact hf, by rw [hlang, hg.language]⟩
  have howned : ∀ r ∈ src.collects w.graph.language d.vertices, r.Owned := fun r hr =>
    Scan.owned_reads _ _ r (List.mem_of_mem_filter hr)
  have haliases : x.aliases = reachingAliases src snk bar name :=
    congrArg Flow.toFlowAliases hflow
  have happly := Search.wpE_apply hready hlists howned
    (rfl : (Table.ofColumn src.name (.data col)).onlyColumn = _) hsink hbar
  rw [hflow, haliases] at happly
  refine wpS_mono (wpS_rest_flow hn h₁ h₂ h₃ (fun n t ht => ?_)
    (P := fun t c => ∃ groups, x.Groups (src.collects w.graph.language d.vertices) groups ∧
      t.Shows c.bindings (reachingAliases src snk bar name).fields (Search.pairs groups))
    (wpE_of_never happly fun _ _ h => h.2)) (fun _ q₂ w₂ h => ?_) fun _ _ _ h => h
  · have hm := htabled.only n t ht
    rw [aliases_withSources] at hm
    exact hm
  · obtain ⟨hp₂, t, ⟨groups, hgroups, ht⟩, honly⟩ := h
    have hanswers := Terrain.answers_of_finds hgroups.finds (by
      rw [hgroups.starts]
      exact ScanAction.nodup_collects hids)
    rw [hgroups.starts, hterrain, hacc] at hanswers
    exact ⟨hp₂.trans hp, t.renamed name, _, honly, ⟨ht.columns, ht.size⟩, hanswers⟩

theorem wpS_reaching (ha : App.new o s.toStore = .ok a) (hd : InMemoryStore.Holds d s)
    (hw : w.graph.Faithful (.ofListing d.vertices))
    (hn : (reachingAliases src snk bar name).names.Nodup) :
    wpS (reaching a src snk bar f name) (fun _ q w' => ∃ t pairs, q.result = some t ∧
      t.Shows w'.graph.bindings (reported src.name snk.name name) pairs ∧
      (d.terrain w.graph.language f (blocked bar)).Answers (src.collects w.graph.language d.vertices)
        (·.satisfies snk.accepts) pairs) NeverS empty w := by
  have hfields : ((reachingAliases src snk bar name).fields.map (·.1)).Nodup := by
    rw [FlowAliases.map_fields]
    exact hn
  unfold reaching
  rw [wpS_sources hn, wpS_bind]
  refine wpS_of_never (wpS_run_flow ha hd hw hn) fun _ q₁ w₁ h => ?_
  obtain ⟨hp, t, pairs, honly, ht, hanswers⟩ := h
  have hnames : [src.name, snk.name, name] = (reported src.name snk.name name).map (·.1) := rfl
  rw [hnames]
  show wpS ((Call.select _).run a) _ _ q₁ w₁
  rw [Call.run_of_prepares rfl, wpS_bind, wpS_prepare_of_prepared hp]
  refine wpS_of_never (wpS_rest_select (TableSet.onlyTable_of_get? honly) ht hfields
    (reported_subset src snk bar name) (nodup_reported hn)) fun _ q₂ w₂ h => ?_
  obtain ⟨t', ht', hshows⟩ := h
  exact ⟨t', pairs, ht', hshows, hanswers⟩

/-- On a graph in memory the query succeeds, and the rows of its result are one to each pair of a
source with a sink to which an unblocked way leads, in the order in which the sources are listed.
The registry may be bounded and has nothing in it at first, and no value has been bound that has not
been built. -/
theorem reaching_answers (ha : App.new o s.toStore = .ok a) (hd : InMemoryStore.Holds d s)
    (hl : w.graph.language.Fresh) (hu : w.graph.bindings.Unbuilt)
    (hroom : w.graph.registry.capacity ≠ some 0) (hnil : w.graph.registry.entries = [])
    (hn : (reachingAliases src snk bar name).names.Nodup) :
    ∃ q w' t rows pairs,
      (empty.run (reaching a src snk bar f name)).run w = ((.ok (), q), w') ∧
      q.resultTable = .ok t ∧ t.rows = .ok rows ∧
      rows.map w'.graph.bindings.viewRow =
        pairs.map (fun x => (reported src.name snk.name name).map fun c => (c.1, c.2 x)) ∧
      (d.terrain w.graph.language f (blocked bar)).Answers (src.collects w.graph.language d.vertices)
        (·.satisfies snk.accepts) pairs := by
  obtain ⟨_, q, w', hrun, t, pairs, ht, hshows, hanswers⟩ :=
    exists_of_wpS (wpS_reaching ha hd (Context.faithful_of_nil hl hu hroom hnil) hn)
  obtain ⟨rows, hrows, hview⟩ := hshows.rows (by simp [reported])
  refine ⟨q, w', t, rows, pairs, hrun, ?_, hrows, hview, hanswers⟩
  unfold resultTable
  rw [ht]

def mutualFiles : GraphDump :=
  ⟨[.bare ⟨1⟩ fileLabel, .bare ⟨2⟩ fileLabel],
    [.bare ⟨1⟩ "include" ⟨1⟩ ⟨2⟩, .bare ⟨2⟩ "include" ⟨2⟩ ⟨1⟩]⟩

theorem reaching_answers_mutualFiles :
    ∃ s q w' t rows, InMemoryStore.Holds mutualFiles s ∧
      (empty.run (reaching ⟨.default, s.toStore⟩ ⟨"a", .any⟩ ⟨"b", .any⟩
        (some ⟨"c", .predicate, .none⟩) ⟨some "include", some 1⟩ "d")).run
        (.new ⟨.default, s.toStore⟩ ⟨"plain", [], []⟩) = ((.ok (), q), w') ∧
      q.resultTable = .ok t ∧ t.rows = .ok rows ∧ rows ≠ [] := by
  obtain ⟨s, hs⟩ := InMemoryStore.exists_holds (d := mutualFiles) (by decide) (by decide)
  obtain ⟨q, w', t, rows, pairs, hrun, ht, hrows, hview, hans⟩ :=
    @reaching_answers .default mutualFiles s ⟨.default, s.toStore⟩
      (.new ⟨.default, s.toStore⟩ ⟨"plain", [], []⟩) ⟨"a", .any⟩ ⟨"b", .any⟩
      (some ⟨"c", .predicate, .none⟩) ⟨some "include", some 1⟩ "d" rfl hs
      (fun _ h => absurd h List.not_mem_nil) (fun _ _ => Std.HashMap.getElem?_empty)
      (Option.some_ne_none 0).symm rfl (by decide)
  refine ⟨s, q, w', t, rows, hs, hrun, ht, hrows, ?_⟩
  rintro rfl
  have hnil : pairs = [] := List.map_eq_nil_iff.1 hview.symm
  subst hnil
  have hread : ∀ id : VertexId, ∃ r, Language.read ⟨"plain", [], []⟩ (.bare id fileLabel) = some r ∧
      r.id = id := fun id => ⟨_, rfl, rfl⟩
  obtain ⟨r₁, h₁, hid₁⟩ := hread ⟨1⟩
  obtain ⟨r₂, h₂, hid₂⟩ := hread ⟨2⟩
  have hsource : r₁ ∈ ScanAction.collects ⟨"a", .any⟩ ⟨"plain", [], []⟩ mutualFiles.vertices :=
    List.mem_filter.2 ⟨List.mem_filterMap.2 ⟨_, List.mem_cons_self .., h₁⟩, rfl⟩
  have hleads : (mutualFiles.terrain ⟨"plain", [], []⟩ ⟨some "include", some 1⟩
      (blocked (some ⟨"c", .predicate, .none⟩))).Leads r₁ (Trail.extend ⟨r₁, []⟩ r₂) := by
    refine .step .start ?_ ?_
    · show r₂.id ∈ _
      rw [hid₂, show Trail.id ⟨r₁, []⟩ = ⟨1⟩ from hid₁]
      decide
    · rw [hid₂]
      have hfind : (Catalog.ofListing mutualFiles.vertices).find ⟨2⟩ = some (.bare ⟨2⟩ fileLabel) :=
        Catalog.find_ofListing (v := .bare ⟨2⟩ fileLabel) (by decide)
          (List.mem_cons_of_mem _ (List.mem_singleton.2 rfl))
      show Option.filter (fun r => !blocked (some ⟨"c", .predicate, .none⟩) r)
        ((Catalog.ofListing mutualFiles.vertices).read ⟨"plain", [], []⟩ ⟨2⟩) = some r₂
      rw [Catalog.read_of_find hfind, h₂]
      rfl
  have hne : r₂.id ≠ r₁.id := by
    rw [hid₁, hid₂]
    decide
  have hwithin : ∀ limit, some 1 = some limit → 1 ≤ limit := fun limit h =>
    Nat.le_of_eq (Option.some.inj h)
  obtain ⟨t, hm, -⟩ := (hans.mem_iff r₁ r₂).2
    ⟨hsource, rfl, hne, _, hleads, hwithin, Nat.one_pos, rfl⟩
  cases hm

end Query

end CodeGraph
