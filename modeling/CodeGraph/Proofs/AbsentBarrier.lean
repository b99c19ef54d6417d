import CodeGraph.Proofs.Abreast
import CodeGraph.Proofs.ReachabilityQuery

/-!
# Barriers that accept nothing

A reachability flow whose barrier accepts no value finds what the flow without a barrier finds, if
asking the barrier makes no difference (`Reachability.Harmless`). It can make one. When a value is
shared by several vertices, asking for its node uses the entry of another vertex than the one that was
just looked up, so it decides which entry a bounded registry forgets next, and a sink that asks for a
node may find it or not (`Reachability.rejecting_barrier_changes_rows`).
-/

namespace CodeGraph

namespace Column

/-- The columns in which there is no value: a predicate that accepts none, no cells, or cells that hold
nothing or a text. -/
inductive Vacant : Column → Prop where
  | none (name : String) : Vacant (.predicate name .none)
  | empty (name : String) (indexed : Bool) : Vacant (.data (.new name indexed))
  | texts (name : String) {cells : Array (Cell Ref)} :
      (∀ cell ∈ cells, cell = .null ∨ ∃ s, cell = .text s) → Vacant (.any name cells)

theorem rejects_new (name : String) (indexed : Bool) :
    (Column.data (.new name indexed)).Rejects := by
  intro v c
  show DataColumn.contains _ _ _ = false
  have hnone : (#[] : Array (Cell Ref)).any (c.bindings.sameCell · (.value v)) = false := by simp
  unfold DataColumn.contains DataColumn.new
  cases indexed with
  | false =>
    rw [if_neg Bool.false_ne_true]
    exact hnone
  | true =>
    rw [if_pos rfl]
    cases DataColumn.vertexIn c.bindings (.value v) with
    | none => exact hnone
    | some id => exact Std.HashMap.contains_empty

theorem Vacant.rejects {col : Column} (h : col.Vacant) : col.Rejects := by
  cases h with
  | none => exact fun _ _ => rfl
  | empty name indexed => exact rejects_new name indexed
  | texts name hcells =>
    intro v c
    show Array.any _ _ = false
    rw [Array.any_eq_false']
    intro cell hcell
    rcases hcells cell hcell with rfl | ⟨s, rfl⟩ <;>
      simp [Bindings.sameCell, Bindings.cellKey, Cell.key]

theorem idle_of_blind (name : String) {accepts : ValuePredicate} (h : accepts.Blind) :
    (Column.predicate name accepts).Idle :=
  fun v c => (h.wp_test (.file (.bare ⟨0⟩ fileLabel) "") v c).2

theorem Vacant.idle {col : Column} (h : col.Vacant) : col.Idle := by
  cases h with
  | none name => exact idle_of_blind name trivial
  | empty | texts => exact fun _ _ => rfl

theorem rejects_and_none (name : String) (accepts : ValuePredicate) :
    (Column.predicate name (.and accepts .none)).Rejects := by
  intro v c
  show wp (ValuePredicate.test (.and accepts .none) v) (fun yes _ => yes = false) c
  unfold ValuePredicate.test
  rw [wp_bind]
  exact wp_mono (Q := fun _ _ => True) trivial fun yes _ _ => by cases yes <;> rfl

end Column

namespace Reachability
variable {a : App} {w : World} {col : Column} {src snk n name : String} {t t' t₁ t₂ t₃ : Table}

/-- Asking the column changes nothing, or nothing is forgotten, or all that is registered is what the
store's vertices stand for and the rules build new values. -/
def Harmless (a : App) (w : World) (col : Column) : Prop :=
  col.Idle ∨ w.graph.registry.capacity = none ∨
    ∃ k : Catalog, w.graph.Faithful k ∧ ∀ id v, a.store.vertex id = .ok (some v) → k.find id = some v

/-- Tables of flows that differ in the barrier: they have the same rows but for its cell, which is
empty. -/
structure SameButBarrier (src snk n name : String) (t t' : Table) : Prop where
  narrow : t.headers = [src, snk, name]
  wide : t'.headers = [src, snk, n, name]
  rows : ∃ rows, t.rows = .ok rows ∧
    t'.rows = .ok (rows.map fun r => r.take 2 ++ (n, .null) :: r.drop 2)

/-- The flow without a barrier and the flow with this one fail with the same error, or find the same
under the same bindings. -/
def IgnoresBarrier (a : App) (f : Reachability) (w : World) (src snk n name : String)
    (t₁ t₂ t₃ : Table) : Prop :=
  let x := (Flow.apply ⟨⟨src, snk, none, name⟩, f.algorithm a⟩ t₁ t₂ none).run.run w
  let y := (Flow.apply ⟨⟨src, snk, some n, name⟩, f.algorithm a⟩ t₁ t₂ (some t₃)).run.run w
  Agree (SameButBarrier src snk n name) x.1 y.1 ∧ y.2.graph.bindings = x.2.graph.bindings

theorem sameButBarrier_of_widened (hn : t.headers = [src, snk, name]) (h : t.Widened n 2 t') :
    SameButBarrier src snk n name t t' := by
  refine ⟨hn, ?_, h.rows⟩
  rw [h.headers_eq, hn]
  rfl

theorem SameButBarrier.rowCount_eq (h : SameButBarrier src snk n name t t') :
    t'.rowCount = t.rowCount := by
  obtain ⟨rows, hrows, hrows'⟩ := h.rows
  rw [← Table.length_rows hrows, ← Table.length_rows hrows', List.length_map]

/-- A harmless search goes abreast of the one without the barrier. -/
theorem Harmless.exists_calm (h : Harmless a w col) :
    ∃ free G, Calm a col free G ∧ (beside free G).Step (w, w) (w, w) := by
  rcases h with h | h | ⟨k, hf, hk⟩
  · exact ⟨_, _, calm_of_idle h, ⟨.refl _, Or.inr rfl, False.elim⟩, trivial⟩
  · exact ⟨_, _, calm_of_free, ⟨.refl _, Or.inr rfl, fun _ => h⟩, trivial⟩
  · exact ⟨_, _, calm_of_faithful hk, ⟨.refl _, Or.inr rfl, False.elim⟩, hf⟩

/-- A barrier that accepts no value adds a column of empty cells to what the flow finds, if there is no
value in it or asking it makes no difference. -/
theorem rejecting_barrier_ignored (f : Reachability) (h₃ : t₃.onlyColumn = .ok col)
    (hn : n ∉ [src, snk, name]) (h : col.Vacant ∨ col.Rejects ∧ Harmless a w col) :
    IgnoresBarrier a f w src snk n name t₁ t₂ t₃ := by
  obtain ⟨hr, hharmless⟩ : col.Rejects ∧ Harmless a w col :=
    h.elim (fun h => ⟨h.rejects, Or.inl h.idle⟩) id
  obtain ⟨free, G, hcalm, hw⟩ := hharmless.exists_calm
  have happly := hcalm.wpE₂_apply hr hw f hn t₁ t₂ h₃
  exact ⟨happly.2.mono fun _ _ h => sameButBarrier_of_widened h.1 h.2, happly.1.1.alike.bindings⟩

/-- A file that has been resolved in a registry without bound. -/
def resolvedFile : World :=
  ⟨⟨⟨"plain", [], []⟩, Bindings.bind ⟨1, ∅⟩ ⟨1⟩ (.built 0), ⟨none, []⟩, ∅, #[]⟩, #[], .zero, .free, #[], 0⟩

theorem rejecting_barrier_ignored_mutualFiles :
    ∃ s, InMemoryStore.Holds Query.mutualFiles s ∧
      IgnoresBarrier ⟨.default, s.toStore⟩ ⟨some "include", none⟩ resolvedFile "a" "b" "c" "d"
        (.ofColumn "a" (.any "a" #[.value (.node (.built 0) (.stub fileLabel) [])]))
        (.ofColumn "b" (.predicate "b" .any))
        (.ofColumn "c" (.predicate "c" (.and (.node fun _ => true) .none))) := by
  obtain ⟨s, hs⟩ := InMemoryStore.exists_holds (d := Query.mutualFiles) (by decide) (by decide)
  exact ⟨s, hs, rejecting_barrier_ignored ⟨some "include", none⟩ rfl (by decide)
    (Or.inr ⟨Column.rejects_and_none _ _, Or.inr (Or.inl rfl)⟩)⟩

/-! ### A barrier that makes a difference -/

theorem wpE_rounds_of_no_edges {f : Reachability} {sink barrier : Column} {start : Value}
    {us : List Waiting} (h : ∀ u ∈ us, a.store.outEdges u.vertex f.label = .ok []) (marks : Marks)
    (r : FlowResult) (w : World) :
    wpE (f.rounds a sink barrier start marks r us) (fun r' _ => r' = r) Never w := by
  induction us generalizing w with
  | nil =>
    rw [rounds]
    exact rfl
  | cons u us ih =>
    rw [List.forall_mem_cons] at h
    rw [rounds]
    split
    · rw [wpE_bind, wpE_outEdges, h.1]
      dsimp only
      rw [wpE_bind]
      refine wpE_pure.2 ?_
      dsimp only
      rw [List.append_nil]
      exact ih h.2 _
    · exact ih h.2 w

namespace Sharing

def treeOf (kind : String) : Json := .obj [("_identifier", .str kind)]

def pairTree : Json := .obj [("_identifier", .str "R"), ("left", treeOf "S"), ("right", treeOf "T")]

def sValue : Value := .node (.shared 0) (.ofKind "S") []

def tValue : Value := .node (.shared 1) (.ofKind "T") []

def pairValue : Value := .node (.built 1) (.ofKind "R") [sValue, tValue]

def fileValue : Value := .node (.built 0) (.stub fileLabel) []

/-- The trees of the kinds `S` and `T` have one value each, and others are built of those of their
parts. -/
def language : Language :=
  ⟨"sharing", [⟨.one "S", fun _ _ => some (.existing sValue)⟩,
    ⟨.one "T", fun _ _ => some (.existing tValue)⟩,
    ⟨.any, Outline.recipe ⟨none, ["left", "right"], [], [], none, none⟩⟩], []⟩

def code (id : VertexId) (tree : Json) : Vertex := (Vertex.bare id codeLabel).withProperty "json" tree

def entry (id : VertexId) (tree : Json) (v : Value) : VertexId × Registration :=
  (id, ⟨.code (code id tree) ⟨0, "", "", ⟨tree⟩, none⟩, v⟩)

def first : VertexId × Registration := entry ⟨1⟩ pairTree pairValue

def second : VertexId × Registration := entry ⟨2⟩ (treeOf "S") sValue

def third : VertexId × Registration := entry ⟨3⟩ (treeOf "T") tValue

/-- A file from which a tree of each of the two kinds is reached. -/
def graph : GraphDump :=
  ⟨[.bare ⟨4⟩ fileLabel, code ⟨1⟩ pairTree, code ⟨2⟩ (treeOf "S"), code ⟨3⟩ (treeOf "T")],
    [.bare ⟨1⟩ "e" ⟨4⟩ ⟨2⟩, .bare ⟨2⟩ "e" ⟨4⟩ ⟨3⟩]⟩

/-- The file and the vertices 1 and 2 have been resolved, and these two are registered. -/
def world : World :=
  ⟨⟨language, (Bindings.bind ⟨2, ∅⟩ ⟨4⟩ (.built 0)).bindAll ⟨1⟩ pairValue, ⟨some 2, [second, first]⟩,
    ∅, #[]⟩, #[], .zero, .free, #[], 0⟩

def isCode : ValuePredicate := .node fun n => n.code?.isSome

def sink : Column := .predicate "sink" (.and (.ofKind "T") isCode)

def barrier : Column := .predicate "barrier" (.and isCode .none)

/-- A context of at most two entries, in which both shared values belong to vertex 1. -/
structure Stands (c : Context) (es : List (VertexId × Registration)) : Prop where
  language : c.language = language
  sBound : c.bindings.vertex? sValue = some ⟨1⟩
  tBound : c.bindings.vertex? tValue = some ⟨1⟩
  staged : c.staged[(⟨1⟩ : VertexId)]? = none
  registry : c.registry = ⟨some 2, es⟩

def used (es : List (VertexId × Registration)) : List (VertexId × Registration) :=
  (Registry.touch? ⟨some 2, es⟩ ⟨1⟩).2.entries

theorem stands_world : Stands world.graph [second, first] := by
  have hnew : ∀ key, (Bindings.bind ⟨2, ∅⟩ ⟨4⟩ (.built 0)).vertexOf[Ref.shared key]? = none := by
    intro key
    rw [Bindings.getElem?_bind, if_neg nofun]
    exact Std.HashMap.getElem?_empty
  have hshared : ∀ v ∈ [pairValue, sValue, tValue], ∀ key, v.tag = .shared key →
      world.graph.bindings.vertex? v = some ⟨1⟩ := by
    intro v hv key htag
    show (Bindings.bindAll _ _ _).vertexOf[v.tag]? = _
    rw [Bindings.getElem?_bindAll, if_pos ⟨v, hv, rfl⟩, htag, hnew]
    rfl
  exact ⟨rfl, hshared sValue (by simp) 0 rfl, hshared tValue (by simp) 1 rfl,
    Std.HashMap.getElem?_empty, rfl⟩

theorem vertex?_fileValue : world.graph.bindings.vertex? fileValue = some ⟨4⟩ := by
  refine Bindings.extends_bindAll _ ⟨1⟩ pairValue _ _ ?_
  rw [Bindings.getElem?_bind, if_pos (show Ref.built 0 = fileValue.tag from rfl),
    Std.HashMap.getElem?_empty]
  rfl

variable {c : Context} {es : List (VertexId × Registration)} {v : Value}

theorem Stands.wp_isCode (h : Stands c es) (hv : c.bindings.vertex? v = some ⟨1⟩) :
    wp (isCode.test v) (fun yes c' => yes = (es.lookup ⟨1⟩).any (·.node.code?.isSome) ∧
      Stands c' (used es)) c := by
  have hnode : c.nodeAt? ⟨1⟩ = (es.lookup ⟨1⟩).map (·.node) := by
    unfold Context.nodeAt?
    rw [h.staged, h.registry, Option.or_none]
    rfl
  unfold isCode ValuePredicate.test
  rw [wp_bind]
  refine wp_mono (Context.wp_nodeOf?_bound hv) fun found c' hc => ?_
  obtain ⟨rfl, rfl⟩ := hc
  refine ⟨?_, h.language, h.sBound, h.tBound, h.staged, ?_⟩
  · rw [hnode, Option.any_map]
    rfl
  · show (c.registry.touch? ⟨1⟩).2 = _
    rw [h.registry]
    unfold used Registry.touch?
    cases Registry.peek? _ _ <;> rfl

/-- What asking the barrier does to the entries, and whether vertex 1 is still registered when the sink
asks for the node of the second value. -/
structure Goes (col : Column) (after : List (VertexId × Registration) → List (VertexId × Registration))
    (found : Bool) : Prop where
  asked : ∀ c es v, Stands c es → c.bindings.vertex? v = some ⟨1⟩ →
    wp (col.contains (.value v)) (fun yes c' => yes = false ∧ Stands c' (after es)) c
  absent : (after [second, first]).lookup ⟨3⟩ = none
  found : ((after (third :: (after [second, first]).take 1)).lookup ⟨1⟩).any
    (·.node.code?.isSome) = found

theorem goes_noBarrier : Goes Flow.noBarrier id false := ⟨fun _ _ _ h _ => ⟨rfl, h⟩, rfl, rfl⟩

theorem goes_barrier : Goes barrier used true := by
  refine ⟨fun c es v h hv => ?_, rfl, rfl⟩
  show wp (ValuePredicate.test (.and isCode .none) v) _ _
  unfold ValuePredicate.test
  rw [wp_bind]
  refine wp_mono (h.wp_isCode hv) fun yes c' hc => ?_
  cases yes <;> exact ⟨rfl, hc.2⟩

/-! #### Looking up the two vertices -/

theorem Stands.wpE_valueOf_second (h : Stands w.graph [second, first]) :
    wpE (valueOf a ⟨2⟩) (fun o w' => o = some sValue ∧ Stands w'.graph [second, first]) Never w := by
  obtain ⟨⟨_, _, _, _, _⟩, _, _, _, _, _⟩ := w
  obtain rfl := h.registry
  exact ⟨rfl, h⟩

theorem build_third (n : Nat) : language.build ⟨treeOf "T"⟩ n = (tValue, n) := by
  rw [Language.build]
  rfl

theorem Stands.wpE_buildVertex_third (h : Stands c es) :
    wpE (Context.buildVertex (code ⟨3⟩ (treeOf "T"))) (fun r c' => r = third.2 ∧ c' = c) Never c := by
  have hbuild : wp (Context.buildValue ⟨treeOf "T"⟩) (fun v c' => v = tValue ∧ c' = c) c := by
    show (c.language.build ⟨treeOf "T"⟩ c.bindings.serial).1 = tValue ∧
      { c with bindings := { c.bindings with
        serial := (c.language.build ⟨treeOf "T"⟩ c.bindings.serial).2 } } = c
    rw [h.language, build_third, ← h.language]
    exact ⟨rfl, rfl⟩
  unfold Context.buildVertex
  rw [if_pos (show (code ⟨3⟩ (treeOf "T")).label = codeLabel from rfl)]
  unfold Context.buildCode
  show wpE (liftM (Context.buildTree (treeOf "T")) >>= _) _ _ _
  rw [wpE_bind, wpE_lift]
  show wp (Context.buildValue ⟨treeOf "T"⟩ >>= _) _ _
  rw [wp_bind]
  refine wp_mono hbuild fun v c' hc => ?_
  obtain ⟨rfl, rfl⟩ := hc
  exact ⟨rfl, rfl⟩

theorem Stands.wpE_resolve_third (h : Stands c es) (hes : es.lookup ⟨3⟩ = none) :
    wpE (Context.resolve (code ⟨3⟩ (treeOf "T")) .store)
      (fun kept c' => kept = third.2 ∧ Stands c' (third :: es.take 1)) Never c := by
  have hext : c.bindings.Extends (c.bindings.bindAll ⟨3⟩ tValue) :=
    Bindings.extends_bindAll c.bindings ⟨3⟩ tValue
  have hkept : c.registry.register third.2 = (third.2, ⟨some 2, third :: es.take 1⟩) := by
    rw [h.registry]
    exact Registry.register_of_none hes
  unfold Context.resolve
  rw [wpE_bind]
  refine wpE_of_never h.wpE_buildVertex_third fun r c' hc => ?_
  obtain ⟨rfl, rfl⟩ := hc
  refine ⟨congrArg Prod.fst hkept, h.language, hext _ _ h.sBound, hext _ _ h.tBound, h.staged, ?_⟩
  exact congrArg Prod.snd hkept

theorem Stands.wpE_valueOf_third (ha : a.store.vertex ⟨3⟩ = .ok (some (code ⟨3⟩ (treeOf "T"))))
    (h : Stands w.graph es) (hes : es.lookup ⟨3⟩ = none) :
    wpE (valueOf a ⟨3⟩) (fun o w' => o = some tValue ∧ Stands w'.graph (third :: es.take 1))
      Never w := by
  have hnone : w.graph.registry.peek? ⟨3⟩ = none := by
    rw [h.registry]
    exact hes
  have hcached : wp (Context.cached? ⟨3⟩) (fun found c => found = none ∧ c = w.graph) w.graph := by
    show (w.graph.registry.touch? ⟨3⟩).1 = none ∧
      { w.graph with registry := (w.graph.registry.touch? ⟨3⟩).2 } = w.graph
    unfold Registry.touch?
    rw [hnone]
    exact ⟨rfl, rfl⟩
  unfold valueOf
  rw [wpE_bind, wpE_isRegistered, Registry.contains, hnone, Option.isSome_none,
    if_neg Bool.false_ne_true, wpE_bind, wpE_vertex, ha]
  show wpE (World.valueOf? (.vertex (code ⟨3⟩ (treeOf "T")))) _ _ _
  rw [wpE_valueOf?]
  unfold Context.valueOf? Context.valueOf Context.lookup
  rw [wp_bind, wp_run, wpE_bind, wpE_bind, wpE_lift]
  refine wp_mono hcached fun found c hc => ?_
  obtain ⟨rfl, rfl⟩ := hc
  refine wpE_of_never (h.wpE_resolve_third hes) fun kept c hc => ?_
  obtain ⟨rfl, hc⟩ := hc
  exact ⟨rfl, hc⟩

/-! #### The search -/

variable {after : List (VertexId × Registration) → List (VertexId × Registration)} {found : Bool}
  {r : FlowResult} {P : FlowResult → Prop}

/-- The finding that there is if the node of the second value is found. -/
def finding : Finding := ⟨fileValue, tValue, [fileValue, tValue]⟩

theorem Stands.wpE_visit_second (h : Stands w.graph [second, first]) (hcol : Goes col after found) :
    wpE (visit a sink col fileValue [fileValue] ⟨2⟩ r) (fun x w' =>
      x = (some ⟨⟨2⟩, [sValue, fileValue]⟩, r) ∧ Stands w'.graph (after [second, first])) Never w := by
  unfold visit
  rw [wpE_bind]
  refine wpE_of_never h.wpE_valueOf_second fun o w₁ h => ?_
  obtain ⟨rfl, h⟩ := h
  dsimp only
  rw [wpE_bind, wpE_member]
  refine wp_mono (hcol.asked _ _ _ h h.sBound) fun yes c h => ?_
  obtain ⟨rfl, h⟩ := h
  exact ⟨rfl, h⟩

theorem Stands.wpE_visit_third (ha : a.store.vertex ⟨3⟩ = .ok (some (code ⟨3⟩ (treeOf "T"))))
    (h : Stands w.graph (after [second, first])) (hcol : Goes col after found)
    (hr : ∀ w, wpE (if found then r.emit finding else pure r) (fun r' _ => P r') Never w) :
    wpE (visit a sink col fileValue [fileValue] ⟨3⟩ r) (fun x _ =>
      x.1 = some ⟨⟨3⟩, [tValue, fileValue]⟩ ∧ P x.2) Never w := by
  have hnext : ∀ r' w', P r' → wpE (pure (some (⟨⟨3⟩, [tValue, fileValue]⟩ : Waiting), r') : QueryM _)
      (fun x _ => x.1 = some ⟨⟨3⟩, [tValue, fileValue]⟩ ∧ P x.2) Never w' := fun r' _ h => ⟨rfl, h⟩
  unfold visit
  rw [wpE_bind]
  refine wpE_of_never (h.wpE_valueOf_third ha hcol.absent) fun o w₁ h => ?_
  obtain ⟨rfl, h⟩ := h
  dsimp only
  rw [wpE_bind, wpE_member]
  refine wp_mono (hcol.asked _ _ _ h h.tBound) fun yes c h => ?_
  obtain ⟨rfl, h⟩ := h
  rw [if_neg Bool.false_ne_true, wpE_bind, wpE_member]
  show wp (isCode.test tValue) _ _
  -- the node is found if the entry of vertex 1 has outlived the registration of vertex 3
  refine wp_mono (h.wp_isCode h.tBound) fun yes c h => ?_
  rw [h.1, hcol.found]
  cases found with
  | false =>
    rw [if_neg Bool.false_ne_true, wpE_bind]
    exact wpE_of_never (hr _) hnext
  | true =>
    rw [if_pos rfl, wpE_bind]
    exact wpE_of_never (hr _) hnext

structure Serves (a : App) : Prop where
  vertex : ∀ id, a.store.vertex id = .ok ((Catalog.ofListing graph.vertices).find id)
  outEdges : ∀ id label, a.store.outEdges id label =
    .ok (graph.edges.filter fun e => e.tail == id && label.all (e.label == ·))

theorem Stands.wpE_follow (ha : Serves a) (h : Stands w.graph [second, first])
    (hcol : Goes col after found)
    (hr : ∀ w, wpE (if found then r.emit finding else pure r) (fun r' _ => P r') Never w)
    {before : Marks} {s : Grown before} (hs : s.1 = ⟨.single ⟨4⟩, [], r⟩) :
    wpE (follow a sink col fileValue [fileValue] before graph.edges s) (fun s _ =>
      (∀ u ∈ s.1.waiting, u.vertex ≠ ⟨4⟩) ∧ P s.1.result) Never w := by
  have hmet : s.1.marks.add? ⟨2⟩ = some ⟨[⟨2⟩, ⟨4⟩], by decide⟩ := by
    rw [hs]
    rfl
  unfold graph
  rw [follow_cons_of_some hmet, wpE_bind, hs]
  refine wpE_of_never (h.wpE_visit_second hcol) fun x w₁ h => ?_
  obtain ⟨rfl, h⟩ := h
  rw [follow_cons_of_some (show Marks.add? ⟨[⟨2⟩, ⟨4⟩], _⟩ ⟨3⟩ = some ⟨[⟨3⟩, ⟨2⟩, ⟨4⟩], by decide⟩ from rfl),
    wpE_bind]
  refine wpE_of_never (h.wpE_visit_third (ha.vertex _) hcol hr) fun x w₂ h => ?_
  refine wpE_pure.2 ⟨?_, h.2⟩
  show ∀ u ∈ (s.1.waiting ++ [_]) ++ x.1.toList, _
  rw [hs, h.1]
  intro u hu
  simp only [List.nil_append, Option.toList_some, List.mem_append, List.mem_singleton] at hu
  rcases hu with rfl | rfl <;> exact (by decide)

theorem Stands.wpE_algorithm (ha : Serves a) (h : Stands w.graph [second, first])
    (hfile : w.graph.bindings.vertex? fileValue = some ⟨4⟩) (hcol : Goes col after found)
    (hr : ∀ w, wpE (if found then r.emit finding else pure r) (fun r' _ => P r') Never w)
    (source : Column) :
    wpE (algorithm ⟨none, none⟩ a fileValue source sink col r) (fun r' _ => P r') Never w := by
  have hstart : wpE (Context.vertexOf fileValue) (fun id c => id = ⟨4⟩ ∧ c = w.graph) Never
      w.graph := by
    unfold Context.vertexOf
    rw [wpE_bind, wpE_get, hfile]
    exact ⟨rfl, rfl⟩
  have hfollows : follows ⟨none, none⟩ (⟨⟨4⟩, [fileValue]⟩ : Waiting) = true := rfl
  have hedges : a.store.outEdges ⟨4⟩ none = .ok graph.edges := ha.outEdges ⟨4⟩ none
  unfold algorithm
  rw [wpE_bind, wpE_resolving]
  refine wpE_of_never hstart fun id c hc => ?_
  obtain ⟨rfl, rfl⟩ := hc
  rw [rounds, hfollows, if_pos rfl, wpE_bind, wpE_outEdges, hedges]
  dsimp only
  rw [wpE_bind]
  refine wpE_of_never (wpE_follow ha ?_ hcol hr ?_) fun s w₁ hs => ?_
  · exact h
  · rfl
  refine wpE_of_never (wpE_rounds_of_no_edges (fun u hu => ?_) _ _ w₁) fun r'' _ h => h ▸ hs.2
  rw [ha.outEdges]
  refine congrArg Except.ok (List.filter_eq_nil_iff.2 fun e he => ?_)
  have htail : e.tail = ⟨4⟩ := by
    simp only [graph, List.mem_cons, List.not_mem_nil, or_false] at he
    rcases he with rfl | rfl <;> rfl
  rw [htail, beq_false_of_ne (hs.1 u hu).symm]
  exact Bool.false_ne_true

def sourceTable : Table := .ofColumn "source" (.any "source" #[.value fileValue])

def sinkTable : Table := .ofColumn "sink" sink

def flowOf (a : App) (barrier : Option String) : Flow :=
  ⟨⟨"source", "sink", barrier, "path"⟩, algorithm ⟨none, none⟩ a⟩

theorem wpE_apply (ha : Serves a) (hcol : Goes col after found) {barrier : Option String}
    (t₃ : Option Table) (h₃ : t₃.elim (.ok Flow.noBarrier) Table.onlyColumn = .ok col)
    (hnew : FlowResult.new world.graph.bindings ⟨"source", "sink", barrier, "path"⟩ = .ok r)
    (hr : ∀ w, wpE (if found then r.emit finding else pure r) (fun r' _ => P r') Never w) :
    wpE ((flowOf a barrier).apply sourceTable sinkTable t₃) (fun t _ => ∃ r', t = r'.table ∧ P r')
      Never world := by
  have hsource : sourceTable.onlyColumn = .ok (.any "source" #[.value fileValue]) := rfl
  have hsink : sinkTable.onlyColumn = .ok sink := rfl
  rw [Flow.apply_of_columns _ hsource hsink h₃, wpE_bind, wpE_lift, wp_bindings]
  unfold flowOf
  rw [hnew, wpE_bind, wpE_except]
  dsimp only
  rw [wpE_bind]
  refine wpE_except.2 ?_
  show wpE (List.foldlM _ r [Cell.value fileValue] >>= _) _ _ _
  rw [List.foldlM_cons, bind_assoc, wpE_bind]
  exact wpE_of_never (stands_world.wpE_algorithm ha vertex?_fileValue hcol hr
    (.any "source" #[.value fileValue])) fun r' _ h => ⟨r', rfl, h⟩

theorem wpE_apply_none (ha : Serves a) :
    wpE ((flowOf a none).apply sourceTable sinkTable none) (fun t _ => t.rowCount = 0) Never
      world := by
  obtain ⟨r, hnew, hcount⟩ : ∃ r, FlowResult.new world.graph.bindings
      ⟨"source", "sink", none, "path"⟩ = .ok r ∧ r.table.rowCount = 0 := ⟨_, rfl, rfl⟩
  have happly := wpE_apply (P := fun r => r.table.rowCount = 0) ha goes_noBarrier none rfl hnew
    fun _ => hcount
  refine wpE_of_never happly ?_
  rintro t _ ⟨r, rfl, h⟩
  exact h

theorem wpE_apply_some (ha : Serves a) :
    wpE ((flowOf a (some "barrier")).apply sourceTable sinkTable
      (some (.ofColumn "barrier" barrier))) (fun t _ => t.rowCount = 1) Never world := by
  obtain ⟨r, hnew, hadd⟩ : ∃ r, FlowResult.new world.graph.bindings
      ⟨"source", "sink", some "barrier", "path"⟩ = .ok r ∧ ∀ b x, ∃ t,
        r.table.addRow b (FlowResult.rowOf r.aliases x) = .ok t ∧ t.rowCount = 1 :=
    ⟨_, rfl, fun _ _ => ⟨_, rfl, rfl⟩⟩
  have hemit : ∀ w, wpE (if true then r.emit finding else pure r) (fun r' _ => r'.table.rowCount = 1)
      Never w := by
    intro w
    obtain ⟨t, ht, hcount⟩ := hadd w.graph.bindings finding
    rw [if_pos rfl]
    unfold FlowResult.emit
    rw [wpE_bind, wpE_lift, wp_bindings, ht]
    exact hcount
  have happly := wpE_apply (P := fun r => r.table.rowCount = 1) ha goes_barrier
    (some (.ofColumn "barrier" barrier)) rfl hnew hemit
  refine wpE_of_never happly ?_
  rintro t _ ⟨r, rfl, h⟩
  exact h

end Sharing

/-- A barrier that accepts no value is not ignored in all worlds, even if no request fails. -/
theorem rejecting_barrier_changes_rows :
    ¬ ∀ (a : App) (f : Reachability) (w : World) (src snk n name : String) (t₁ t₂ t₃ : Table)
      (col : Column), (∀ id, ∃ v, a.store.vertex id = .ok v) →
      (∀ id label, ∃ es, a.store.outEdges id label = .ok es) → t₃.onlyColumn = .ok col →
      col.Rejects → n ∉ [src, snk, name] → IgnoresBarrier a f w src snk n name t₁ t₂ t₃ := by
  intro hall
  obtain ⟨s, hs⟩ := InMemoryStore.exists_holds (d := Sharing.graph) (by decide) (by decide)
  have ha : Sharing.Serves ⟨.default, s.toStore⟩ := ⟨fun id => congrArg Except.ok (hs.vertex?_eq id),
    fun id label => congrArg Except.ok (hs.outEdges_eq id label)⟩
  obtain ⟨hagree, -⟩ := hall ⟨.default, s.toStore⟩ ⟨none, none⟩ Sharing.world "source" "sink" "barrier"
    "path" Sharing.sourceTable Sharing.sinkTable (.ofColumn "barrier" Sharing.barrier) _
    (fun _ => ⟨_, rfl⟩) (fun _ _ => ⟨_, rfl⟩) rfl (Column.rejects_and_none _ _) (by decide)
  obtain ⟨t, w, hrun, hnone⟩ := exists_of_wpE (Sharing.wpE_apply_none ha)
  obtain ⟨t', w', hrun', hone⟩ := exists_of_wpE (Sharing.wpE_apply_some ha)
  unfold Sharing.flowOf at hrun hrun'
  rw [hrun, hrun'] at hagree
  have hsame : t'.rowCount = t.rowCount := hagree.rowCount_eq
  rw [hnone, hone] at hsame
  exact absurd hsame Nat.one_ne_zero

end Reachability

end CodeGraph
