import CodeGraph.Proofs.CacheTransparency
import CodeGraph.Proofs.Replacing
import CodeGraph.Proofs.TableShape

/-!
# Stages that commute

Filters and reachability flows all change the live tables of one query and the registry of one context,
and what a flow registers can be asked for by the predicate of a filter. Yet in a query with nothing
but values of registered vertices in its tables (`Query.Rooted`), and a registry that forgets nothing,
two of them commute if no alias is used by both (`Query.Transform.commute`): each makes of its tables what
it would make in the world that the other leaves, but for the objects in them.
-/

namespace CodeGraph

/-! ### The values of a table -/

def Cell.values : Cell Ref → List Value
  | value v => [v]
  | path p => p
  | null | text _ => []

def Column.values : Column → List Value
  | data c => c.cells.toList.flatMap Cell.values
  | predicate .. => []
  | any _ cells => cells.toList.flatMap Cell.values

def Table.values (t : Table) : List Value := t.columns.flatMap Column.values

section
variable {V : Value → Value → Prop}

theorem Cell.paired_self_iff {c : Cell Ref} : c.Paired V c ↔ ∀ v ∈ c.values, V v v := by
  cases c with
  | null => exact ⟨fun _ _ h => absurd h List.not_mem_nil, fun _ => .null⟩
  | value v =>
    refine ⟨fun h u hu => ?_, fun h => .value (h v (List.mem_singleton_self v))⟩
    cases h with
    | value h =>
      rw [List.mem_singleton.1 hu]
      exact h
  | text s => exact ⟨fun _ _ h => absurd h List.not_mem_nil, fun _ => .text s⟩
  | path p =>
    refine ⟨fun h => ?_, fun h => .path (List.forall₂_same.2 h)⟩
    cases h with
    | path h => exact List.forall₂_same.1 h

theorem forall₂_paired_self_iff {cells : List (Cell Ref)} :
    List.Forall₂ (Cell.Paired V) cells cells ↔ ∀ v ∈ cells.flatMap Cell.values, V v v := by
  rw [List.forall₂_same]
  simp only [Cell.paired_self_iff, List.mem_flatMap]
  exact ⟨fun h v ⟨c, hc, hv⟩ => h c hc v hv, fun h c hc v hv => h v ⟨c, hc, hv⟩⟩

theorem Column.paired_self_iff {c : Column} : c.Paired V c ↔ ∀ v ∈ c.values, V v v := by
  cases c with
  | data c =>
    refine ⟨fun h => ?_, fun h => .data rfl (forall₂_paired_self_iff.2 h) fun _ => rfl⟩
    cases h with
    | data _ cells _ => exact forall₂_paired_self_iff.1 cells
  | predicate name accepts =>
    exact ⟨fun _ _ h => absurd h List.not_mem_nil, fun _ => .predicate name accepts⟩
  | any name cells =>
    refine ⟨fun h => ?_, fun h => .any name (forall₂_paired_self_iff.2 h)⟩
    cases h with
    | any _ cells => exact forall₂_paired_self_iff.1 cells

theorem Table.paired_self_iff {t : Table} : t.Paired V t ↔ ∀ v ∈ t.values, V v v := by
  have hcolumns : List.Forall₂ (Column.Paired V) t.columns t.columns ↔ ∀ v ∈ t.values, V v v := by
    rw [List.forall₂_same]
    simp only [Column.paired_self_iff, Table.values, List.mem_flatMap]
    exact ⟨fun h v ⟨c, hc, hv⟩ => h c hc v hv, fun h c hc v hv => h v ⟨c, hc, hv⟩⟩
  exact ⟨fun h => hcolumns.1 h.columns, fun h => ⟨rfl, rfl, hcolumns.2 h⟩⟩

end

def TableSet.seen (b : Bindings) (s : TableSet) : List (String × SeenTable) :=
  s.tables.entries.map fun e => (e.1, e.2.seen b)

theorem TableSet.Paired.seen_eq {V : Value → Value → Prop} {b b' : Bindings} {s s' : TableSet}
    (h : s.Paired V s') (hV : SeenAlike b b' V) : s.seen b = s'.seen b' :=
  map_eq_of_forall₂ (Dictionary.forall₂_entries h) fun _ _ he =>
    congrArg₂ Prod.mk he.1 (he.2.seen_eq hV)

/-! ### What two runs make -/

namespace Ground
open Query (Transform)
variable {g : Ground} {p r : World × World} {a : App} {s : Transform} {tables : String → Table}

theorem wpE₂_make (ha : g.Serves a a) (hl : g.lasting) (hp : g.course.onGraph.Step p p)
    (ht : ∀ x ∈ s.reads, (tables x).Paired (g.Twins (graphs p)) (tables x)) :
    wpE₂ g.course.onGraph (s.make a tables) (s.make a tables)
      (fun t t' r => t.Paired (g.Twins (graphs r)) t') p := by
  cases s with
  | keep name accepts =>
    exact wpE₂_resolving (wpE₂_retain (Or.inr hl) hp (ht name (List.mem_singleton_self name)))
  | reach al f =>
    refine wpE₂_apply ha hp al f (ht _ (by simp [Transform.reads])) (ht _ (by simp [Transform.reads])) ?_
    cases hb : al.barrier with
    | none => exact .none
    | some b => exact .some (ht b (by simp [Transform.reads, hb]))

end Ground

/-! ### Filters that do not fail -/

theorem Table.exists_addRow {t : Table} (hp : t.hasPredicate = false) (b : Bindings) (r : Row Ref) :
    ∃ t', t.addRow b r = .ok t' ∧ t'.hasPredicate = false := by
  obtain ⟨ds, hds⟩ := exists_pushed hp b r
  refine ⟨_, addRow_eq_ok hds, hasPredicate_eq_false_iff.2 ?_⟩
  exact isPredicate_of_grown (hds.imp fun _ _ => Column.grown_of_push) (hasPredicate_eq_false_iff.1 hp)

namespace Filter
variable {t : Table} {p : FilterPredicate} {name : String} {c : Context}

theorem wpE_keep (hp : t.hasPredicate = false) (r : Row Ref) :
    wpE (keep p name t r) (fun u _ => u.hasPredicate = false) Never c := by
  unfold keep
  rw [wpE_bind, wpE_lift]
  refine wp_mono (Q := fun _ _ => True) trivial fun yes c' _ => ?_
  cases yes with
  | false => exact hp
  | true =>
    obtain ⟨t', hadd, hp'⟩ := t.exists_addRow hp c'.bindings r
    rw [if_pos rfl, wpE_bind, wpE_get]
    dsimp only
    rw [hadd]
    exact hp'

theorem wpE_retain (hp : t.hasPredicate = false) {rows : List (Row Ref)} (hrows : t.rows = .ok rows) :
    wpE (apply ⟨name, .retain p⟩ t) (fun _ _ => True) Never c := by
  have hfold : ∀ (u : Table) (c : Context), u.hasPredicate = false →
      wpE (rows.foldlM (keep p name) u) (fun _ _ => True) Never c := by
    clear hrows
    induction rows with
    | nil => exact fun _ _ _ => trivial
    | cons r rows ih =>
      intro u c hu
      rw [List.foldlM_cons, wpE_bind]
      exact wpE_of_never (wpE_keep hu r) ih
  have hempty : (t.duplicate true).hasPredicate = false := by
    refine Table.hasPredicate_eq_false_iff.2 fun x hx => ?_
    obtain ⟨y, hy, rfl⟩ := List.mem_map.1 hx
    rw [Column.isPredicate_duplicate]
    exact Table.hasPredicate_eq_false_iff.1 hp y hy
  unfold apply retain
  rw [wpE_bind, wpE_bind, hrows, wpE_except]
  exact wpE_of_never (hfold _ c hempty) fun _ _ _ => trivial

end Filter

/-! ### Queries with nothing but values of vertices -/

/-- The value is seen as what a registered vertex stands for. -/
def Context.Roots (k : Catalog) (c : Context) (v : Value) : Prop :=
  ∃ id r, k.read c.language id = some r ∧ c.bindings.view v = r.value ∧ c.registry.contains id = true

/-- A prepared query in a world that forgets nothing, with nothing but values of registered vertices
in its live tables. -/
structure Query.Rooted (k : Catalog) (q : Query) (w : World) : Prop where
  prepared : q.prepared = true
  faithful : w.graph.Faithful k
  unbounded : w.graph.registry.capacity = none
  values : ∀ x t, q.tables.get? x = some t → ∀ v ∈ t.values, w.graph.Roots k v

namespace Ground
variable {d : GraphDump} {c : Context} {v : Value}

/-- What runs on a graph in memory have in common that forget nothing. -/
abbrev lastingOn (d : GraphDump) (c : Context) : Ground := inMemory d c.language True

theorem twins_self_iff : (lastingOn d c).Twins (c, c) v v ↔ c.Roots (.ofListing d.vertices) v := by
  constructor
  · rintro ⟨id, r, hread, hv, -, hc⟩
    exact ⟨id, r, hread, hv, (hc trivial).1⟩
  · rintro ⟨id, r, hread, hv, hc⟩
    exact ⟨id, r, hread, hv, hv, fun _ => ⟨hc, hc⟩⟩

end Ground

namespace Query
open Ground (lastingOn)
variable {o : DatabaseOptions} {d : GraphDump} {st : InMemoryStore} {a : App} {q q₂ : Query}
  {w w₂ : World}

namespace Rooted

theorem ready (h : q.Rooted (.ofListing d.vertices) w) : (lastingOn d w.graph).Ready w.graph :=
  ⟨h.faithful, rfl, fun _ => h.unbounded⟩

theorem paired (h : q.Rooted (.ofListing d.vertices) w) :
    q.tables.Paired ((lastingOn d w.graph).Twins (w.graph, w.graph)) q.tables := by
  intro x
  cases ht : q.tables.get? x with
  | none => exact .none
  | some t =>
    exact .some (Table.paired_self_iff.2 fun v hv => Ground.twins_self_iff.2 (h.values x t ht v hv))

theorem paired_tableAt (h : q.Rooted (.ofListing d.vertices) w) (x : String) :
    (q.tableAt x).Paired ((lastingOn d w.graph).Twins (w.graph, w.graph)) (q.tableAt x) := by
  have hx := h.paired x
  unfold tableAt
  generalize q.tables.get? x = t at hx
  cases hx with
  | none => exact Table.Paired.new x
  | some ht => exact ht

/-- What a stage makes in one world that has been reached, it makes in any other. -/
theorem exists_make (hq : q.Rooted (.ofListing d.vertices) w) (ha : (lastingOn d w.graph).Serves a a)
    {s : Transform} {w₁ w₁' : World} {t' : Table}
    (hrun : (s.make a q.tableAt).run.run w₁ = (.ok t', w₁'))
    (h₁ : (lastingOn d w.graph).Moves w.graph w₁.graph) (w₂ : World)
    (h₂ : (lastingOn d w.graph).Moves w.graph w₂.graph) :
    ∃ t w₂', (s.make a q.tableAt).run.run w₂ = (.ok t, w₂') ∧
      (lastingOn d w.graph).Moves w₂.graph w₂'.graph ∧ (lastingOn d w.graph).Moves w₁.graph w₁'.graph ∧
      t.Paired ((lastingOn d w.graph).Twins (w₂'.graph, w₁'.graph)) t' := by
  have hstep : (lastingOn d w.graph).course.Step (w.graph, w.graph) (w₂.graph, w₁.graph) := ⟨h₂, h₁⟩
  obtain ⟨hmoves, hagree⟩ := Ground.wpE₂_make (p := (w₂, w₁)) (s := s) ha trivial
    ((lastingOn d w.graph).course.stay hstep)
    fun x _ => (hq.paired_tableAt x).mono fun _ _ hv => hv.step hstep
  rcases hm : (s.make a q.tableAt).run.run w₂ with ⟨x, w₂'⟩
  rw [hm, hrun] at hmoves hagree
  cases x with
  | error e => exact hagree.elim
  | ok t => exact ⟨t, w₂', rfl, hmoves.1, hmoves.2, hagree⟩

end Rooted

theorem stages_afterAll {g : Ground} (ha : g.Serves a a) (hl : g.lasting) (steps : List Step)
    {x : Query × World} (h : g.stages.Step (x, x) (x, x)) :
    g.stages.Step (x, x) (Call.afterAll a (steps.map (Step.call a)) x,
      Call.afterAll a (steps.map (Step.call a)) x) := by
  induction steps generalizing x with
  | nil => exact h
  | cons s steps ih =>
    have hs : g.stages.Step (x, x) (Call.after a x (s.call a), Call.after a x (s.call a)) :=
      (Ground.wpS₂_step ha h (Or.inr hl)).1
    exact g.stages.trans hs (ih (g.stages.stay hs))

theorem rooted_afterAll (ha : App.new o st.toStore = .ok a) (hd : InMemoryStore.Holds d st)
    (hw : w.graph.Faithful (.ofListing d.vertices)) (hroom : w.graph.registry.capacity = none)
    (steps : List Step) (hrun : Call.afterAll a (steps.map (Step.call a)) (.empty, w) = (q, w₂))
    (hp : q.prepared = true) : q.Rooted (.ofListing d.vertices) w₂ := by
  have hready : (lastingOn d w.graph).Ready w.graph := ⟨hw, rfl, fun _ => hroom⟩
  have hstep := stages_afterAll (Ground.serves_inMemory hd ha ha) trivial steps
    (Ground.step_empty hready hready)
  rw [hrun] at hstep
  obtain ⟨⟨hmoves, -⟩, hpaired⟩ := hstep
  refine ⟨hp, hmoves.ready.faithful, hmoves.ready.lasting trivial, fun x t ht v hv => ?_⟩
  have hlang : w₂.graph.language = w.graph.language := hmoves.ready.language
  have hx := hpaired.tables x
  rw [ht] at hx
  cases hx with
  | some hself =>
    refine Ground.twins_self_iff.1 ?_
    unfold lastingOn
    rw [hlang]
    exact Table.paired_self_iff.1 hself v hv

/-- Two stages with no alias in common commute. If they succeed one after the other they succeed the
other way round, and then the query is the same but for its tables, which are seen the same: there are
the same aliases and columns, and the same rows in the same order. -/
theorem Transform.commute {A B : Transform} (ha : App.new o st.toStore = .ok a)
    (hd : InMemoryStore.Holds d st) (hq : q.Rooted (.ofListing d.vertices) w)
    (hAB : A.aliases.Disjoint B.aliases)
    (hrun : (q.run (do A.step.run a; B.step.run a)).run w = ((.ok (), q₂), w₂)) :
    ∃ q₂' w₂', (q.run (do B.step.run a; A.step.run a)).run w = ((.ok (), q₂'), w₂') ∧
      q₂' = { q₂ with tables := q₂'.tables } ∧
      q₂'.tables.seen w₂'.graph.bindings = q₂.tables.seen w₂.graph.bindings := by
  have hserves : (lastingOn d w.graph).Serves a a := Ground.serves_inMemory hd ha ha
  have hself := hq.ready.refl
  obtain ⟨hA, hB, tA, wA, tB, wB, hrunA, hrunB, rfl, rfl⟩ := (run_both_iff hq.prepared hAB).1 hrun
  obtain ⟨-, _, -, -, hmovesA, -⟩ := hq.exists_make hserves hrunA hself w hself
  -- in the first world `B` makes what it made in the world that `A` left, and in the world that `B`
  -- leaves now `A` makes what it made in the first world
  obtain ⟨tB', wB', hrunB', hmovesB', hmovesB, htB⟩ := hq.exists_make hserves hrunB hmovesA w hself
  obtain ⟨tA', wA', hrunA', hmovesA', -, htA⟩ := hq.exists_make hserves hrunA hself
    { wB' with profile := B.counted wB'.profile } hmovesB'
  have htables : (A.given (B.given q tB') tA').tables.Paired
      ((lastingOn d w.graph).Twins (wA'.graph, wB.graph)) (B.given (A.given q tA) tB).tables := by
    rw [← given_comm hAB]
    refine given_paired (given_paired (hq.paired.mono fun _ _ hv => hv.step ?_)
      (htB.mono fun _ _ hv => hv.step ?_)) (htA.mono fun _ _ hv => hv.step ?_)
    · exact ⟨hmovesB'.trans hmovesA', hmovesA.trans hmovesB⟩
    · exact ⟨hmovesA', hmovesB.ready.refl⟩
    · exact ⟨hmovesA'.ready.refl, hmovesB⟩
  refine ⟨_, _, (run_both_iff hq.prepared fun _ hB hA => hAB hA hB).2
    ⟨hB, hA, tB', wB', tA', wA', hrunB', hrunA', rfl, rfl⟩, ?_, ?_⟩
  · rw [given_given A B]
    exact given_given B A
  · exact htables.seen_eq ((lastingOn d w.graph).seenAlike (wA'.graph, wB.graph))

/-! ### Two stages on two files -/

def inclusionWays : Transform := .reach ⟨"a", "b", none, "d"⟩ ⟨some "include", none⟩

def foundFiles : Transform := .keep "c" (.value (.node fun _ => true))

def threeSources : List Step :=
  [.source ⟨"a", .data, .any⟩, .source ⟨"b", .data, .any⟩, .source ⟨"c", .data, .any⟩]

/-- A filter of a table that is not there. It prepares the query and fails. -/
def missing : Step := .keep "e" (.row fun _ => true)

def ListsFiles (q : Query) (w : World) : Prop :=
  (withSources ⟨"a", .any⟩ ⟨"b", .any⟩ (some ⟨"c", .data, .any⟩)).Tabled w.graph.bindings
    w.graph.language mutualFiles.vertices q.tables

namespace ListsFiles

theorem exists_rooted (hs : InMemoryStore.Holds mutualFiles st) (ha : App.new .default st.toStore = .ok a) :
    ∃ (q : Query) (w : World), q.Rooted (.ofListing mutualFiles.vertices) w ∧ q.ListsFiles w := by
  have hserved := hs.served_eq ha
  have hw : (World.new a ⟨"plain", [], []⟩).graph.Faithful (.ofListing mutualFiles.vertices) :=
    Context.faithful_new (fun _ h => absurd h List.not_mem_nil) _
  have hroom : (World.new a ⟨"plain", [], []⟩).graph.registry.capacity = none := by
    obtain rfl : a = ⟨.default, st.toStore⟩ := (Except.ok.inj ha).symm
    rfl
  have hn : (reachingAliases ⟨"a", .any⟩ ⟨"b", .any⟩ (some ⟨"c", .data, .any⟩) "d").names.Nodup := by decide
  have hlast : wpS ((missing.call a).run a) (fun _ q w => q.prepared = true ∧ q.ListsFiles w)
      (fun _ q w => q.prepared = true ∧ q.ListsFiles w)
      (withSources ⟨"a", .any⟩ ⟨"b", .any⟩ (some ⟨"c", .data, .any⟩)) (.new a ⟨"plain", [], []⟩) := by
    show wpS (Query.filter a ⟨"e", .retain (.row fun _ => true)⟩) _ _ _ _
    unfold Query.filter
    rw [wpS_bind]
    refine wpS_of_never ((recorded_withSources hn).wpS_prepare_tabled (prepared_withSources ..) hw
      fun v hv => Catalog.find_ofListing hs.nodup_ids (by rw [← hserved]; exact hv)) fun _ q w h => ?_
    obtain ⟨hg, -, hp, htabled⟩ := h
    rw [hserved, ← hg.language] at htabled
    have hnone : q.tables.get? "e" = none := Option.eq_none_iff_forall_ne_some.2 fun t ht =>
      absurd (htabled.only _ t ht) (by rw [aliases_withSources]; decide)
    rw [wpS_bind, wpS_takeTable, hnone]
    exact ⟨hp, htabled⟩
  have hsources : Call.afterAll a (threeSources.map (Step.call a)) (.empty, .new a ⟨"plain", [], []⟩) =
      (withSources ⟨"a", .any⟩ ⟨"b", .any⟩ (some ⟨"c", .data, .any⟩), .new a ⟨"plain", [], []⟩) := rfl
  have hrun : Call.afterAll a ((threeSources ++ [missing]).map (Step.call a))
      (.empty, .new a ⟨"plain", [], []⟩) = Call.after a
        (withSources ⟨"a", .any⟩ ⟨"b", .any⟩ (some ⟨"c", .data, .any⟩), .new a ⟨"plain", [], []⟩)
        (missing.call a) := by
    rw [← hsources, List.map_append]
    exact List.foldl_append
  obtain ⟨hp, hlists⟩ := Call.after_of_wpS (R := fun q w => q.prepared = true ∧ q.ListsFiles w) hlast
  exact ⟨_, _, rooted_afterAll ha hs hw hroom _ hrun hp, hlists⟩

theorem column (h : q.ListsFiles w) : ∀ x ∈ ["a", "b", "c"], ∃ col : DataColumn,
    q.tables.get? x = some (.ofColumn x (.data col)) ∧
      col.Lists w.graph.bindings (ScanAction.collects ⟨x, .any⟩ w.graph.language mutualFiles.vertices) := by
  intro x hx
  exact h.data ⟨x, .any⟩ (List.mem_map_of_mem (f := fun x => ScanAction.mk x .any) hx)

theorem fits_inclusionWays (h : q.ListsFiles w) : inclusionWays.Fits q where
  live x hx := by
    obtain ⟨col, hcol, -⟩ := h.column x (by revert x; decide)
    exact TableSet.contains_iff.2 ⟨_, hcol⟩
  nodup := by decide
  free := by
    rw [TableSet.contains_eq_false_iff, get?_dropAll]
    exact Option.eq_none_iff_forall_ne_some.2 fun t ht =>
      absurd (h.only _ t ht) (by rw [aliases_withSources]; decide)

theorem fits_foundFiles (h : q.ListsFiles w) : foundFiles.Fits q where
  live x hx := by
    obtain ⟨col, hcol, -⟩ := h.column x (by revert x; decide)
    exact TableSet.contains_iff.2 ⟨_, hcol⟩
  nodup := by decide
  free := by
    rw [TableSet.contains_eq_false_iff, get?_dropAll]
    rfl

theorem wpE_inclusionWays (h : q.ListsFiles w) (hs : InMemoryStore.Holds mutualFiles st)
    (ha : App.new .default st.toStore = .ok a) (hw : w.graph.Faithful (.ofListing mutualFiles.vertices)) :
    wpE (inclusionWays.make a q.tableAt) (fun _ _ => True) Never w := by
  obtain ⟨source, hsource, hlists⟩ := h.column "a" (by decide)
  obtain ⟨sink, hsink, hsinks⟩ := h.column "b" (by decide)
  have hstore : a.store = st.toStore := App.store_eq ha
  let x : Search := {
    app := a
    flow := ⟨some "include", none⟩
    catalog := .ofListing mutualFiles.vertices
    language := w.graph.language
    next := (mutualFiles.terrain w.graph.language ⟨some "include", none⟩ (blocked none)).next
    sink := .data sink
    barrier := Flow.noBarrier
    accepts := (·.satisfies .any)
    blocks := blocked none
    aliases := ⟨"a", "b", none, "d"⟩
    vertex_eq id := by rw [hstore]; exact congrArg Except.ok (hs.vertex?_eq id)
    outEdges_eq id := ⟨st.outEdges id (some "include"), by rw [hstore]; rfl, by rw [hs.outEdges_eq]; rfl⟩
    sink_tells := Column.tells_data hs.nodup_ids hsinks
    barrier_tells := Column.tells_predicate _ .none
    names := by decide }
  have hready : x.Ready w := ⟨hw, rfl⟩
  show wpE (x.toFlow.apply (q.tableAt "a") (q.tableAt "b") none) _ _ w
  unfold tableAt
  rw [hsource, hsink]
  refine wpE_of_never (Search.wpE_apply hready hlists (fun r hr => ?_) rfl rfl rfl) fun _ _ _ => trivial
  exact Scan.owned_reads _ _ r (List.mem_of_mem_filter hr)

theorem wpE_foundFiles (h : q.ListsFiles w) (w' : World) :
    wpE (foundFiles.make a q.tableAt) (fun _ _ => True) Never w' := by
  obtain ⟨col, hcol, hlists⟩ := h.column "c" (by decide)
  have hshows : (Table.ofColumn "c" (.data col)).Shows w.graph.bindings
      [(col.name, fun r : Reading => .value r.value)]
      (ScanAction.collects ⟨"c", .any⟩ w.graph.language mutualFiles.vertices) := by
    refine ⟨.cons ⟨rfl, col.cells, rfl, hlists.cells⟩ .nil, fun _ => ?_⟩
    exact congrArg Int.ofNat
      (by rw [← Array.length_toList, ← List.length_map, hlists.cells, List.length_map])
  obtain ⟨rows, hrows, -⟩ := hshows.rows (List.cons_ne_nil _ _)
  show wpE (World.resolving (Filter.apply _ (q.tableAt "c"))) _ _ _
  unfold tableAt
  rw [hcol, wpE_resolving]
  exact Filter.wpE_retain rfl hrows

end ListsFiles

theorem Transform.commute_mutualFiles :
    ∃ (s : InMemoryStore) (a : App) (q : Query) (w : World) (q₁ : Query) (w₁ : World) (q₂ : Query)
      (w₂ : World), InMemoryStore.Holds mutualFiles s ∧ App.new .default s.toStore = .ok a ∧
      q.Rooted (.ofListing mutualFiles.vertices) w ∧
      (q.run (do inclusionWays.step.run a; foundFiles.step.run a)).run w = ((.ok (), q₁), w₁) ∧
      (q.run (do foundFiles.step.run a; inclusionWays.step.run a)).run w = ((.ok (), q₂), w₂) ∧
      q₂.tables.seen w₂.graph.bindings = q₁.tables.seen w₁.graph.bindings := by
  obtain ⟨s, hs⟩ := InMemoryStore.exists_holds (d := mutualFiles) (by decide) (by decide)
  have ha : App.new .default s.toStore = .ok ⟨.default, s.toStore⟩ := rfl
  obtain ⟨q, w, hq, hlists⟩ := ListsFiles.exists_rooted hs ha
  have hdisjoint : inclusionWays.aliases.Disjoint foundFiles.aliases :=
    (by decide : ∀ x ∈ inclusionWays.aliases, x ∉ foundFiles.aliases)
  obtain ⟨t, w₁, hways, -⟩ := exists_of_wpE (hlists.wpE_inclusionWays hs ha hq.faithful)
  obtain ⟨t', w₁', hfiles, -⟩ := exists_of_wpE
    (hlists.wpE_foundFiles { w₁ with profile := inclusionWays.counted w₁.profile })
  have hrun := (Transform.run_both_iff hq.prepared hdisjoint).2 ⟨hlists.fits_inclusionWays,
    hlists.fits_foundFiles, t, w₁, t', w₁', hways, hfiles, rfl, rfl⟩
  obtain ⟨q₂, w₂, hrun', -, hseen⟩ := Transform.commute ha hs hq hdisjoint hrun
  exact ⟨s, _, q, w, _, _, q₂, w₂, hs, ha, hq, hrun, hrun', hseen⟩

end Query

end CodeGraph
