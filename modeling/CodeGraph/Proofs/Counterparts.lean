import CodeGraph.Proofs.Lockstep
import CodeGraph.Proofs.Rounds

/-!
# Contexts of one ground

A `Ground` is what the contexts of several runs have in common: the vertices of a graph, the language
that reads them, and perhaps that nothing registered is forgotten. What a run has registered, kept
and forgotten on this ground is its own affair, but a value that it has of a vertex is seen as what
the vertex stands for. So values of one vertex are twins (`Ground.Twins`): they are seen alike in
their runs, asked alike by predicates, found alike in columns, and looked up alike.
-/

namespace CodeGraph

/-- What the contexts of runs have in common. -/
structure Ground where
  catalog : Catalog
  language : Language
  /-- Nothing that is registered is forgotten. -/
  lasting : Prop

namespace Ground
variable {g : Ground} {c c' c'' : Context} {p q : Context × Context} {v v' : Value}

/-- Everything registered is what its vertex stands for. -/
structure Ready (g : Ground) (c : Context) : Prop where
  faithful : c.Faithful g.catalog
  language : c.language = g.language
  lasting : g.lasting → c.registry.capacity = none

/-- More has been built, bound and registered. -/
structure Moves (g : Ground) (c c' : Context) : Prop where
  grows : c.Grows c'
  ready : g.Ready c'
  lasting : g.lasting → c.registry.capacity = none

theorem Ready.moves (h : g.Ready c) (hg : c.Grows c') (hf : c'.Faithful g.catalog) : g.Moves c c' :=
  ⟨hg, ⟨hf, hg.language.trans h.language, fun hl => hg.capacity.trans (h.lasting hl)⟩, h.lasting⟩

theorem Ready.refl (h : g.Ready c) : g.Moves c c := h.moves (.refl c) h.faithful

theorem Moves.trans (h : g.Moves c c') (h' : g.Moves c' c'') : g.Moves c c'' :=
  ⟨h.grows.trans h'.grows, h'.ready, h.lasting⟩

theorem Ready.alike (h : g.Ready c) (ha : c.Alike c') : g.Moves c c' :=
  h.moves ha.grows (h.faithful.alike ha)

/-- Two runs on the ground. -/
def course (g : Ground) : Course Context Context where
  Step p q := g.Moves p.1 q.1 ∧ g.Moves p.2 q.2
  trans h h' := ⟨⟨h.1.grows.trans h'.1.grows, h'.1.ready, h.1.lasting⟩,
    ⟨h.2.grows.trans h'.2.grows, h'.2.ready, h.2.lasting⟩⟩
  stay h := ⟨h.1.ready.refl, h.2.ready.refl⟩

theorem step_self (h : g.Ready c) (h' : g.Ready c') : g.course.Step (c, c') (c, c') :=
  ⟨h.refl, h'.refl⟩

/-- Both values are seen as what a vertex stands for, and the vertex is registered in both runs if
nothing is forgotten. -/
def Twins (g : Ground) (p : Context × Context) (v v' : Value) : Prop :=
  ∃ id r, g.catalog.read g.language id = some r ∧ p.1.bindings.view v = r.value ∧
    p.2.bindings.view v' = r.value ∧
    (g.lasting → p.1.registry.contains id = true ∧ p.2.registry.contains id = true)

theorem Twins.step (h : g.Twins p v v') (hq : g.course.Step p q) : g.Twins q v v' := by
  obtain ⟨id, r, hread, hv, hv', hreg⟩ := h
  have hbound := (Catalog.read_eq_some hread).2.bound
  refine ⟨id, r, hread, ?_, ?_, fun hl => ?_⟩
  · rw [hq.1.grows.bindings.view_eq (by rw [hv]; exact hbound), hv]
  · rw [hq.2.grows.bindings.view_eq (by rw [hv']; exact hbound), hv']
  · obtain ⟨h₁, h₂⟩ := hreg hl
    exact ⟨hq.1.grows.kept (hq.1.lasting hl) id h₁, hq.2.grows.kept (hq.2.lasting hl) id h₂⟩

theorem seenAlike (g : Ground) (p : Context × Context) :
    SeenAlike p.1.bindings p.2.bindings (g.Twins p) := by
  rintro v v' ⟨id, r, -, hv, hv', -⟩
  exact hv.trans hv'.symm

/-- The values that are registered for one vertex. -/
def Met (_ : Ground) (p : Context × Context) (v v' : Value) : Prop :=
  ∃ id k k', p.1.registry.peek? id = some k ∧ k.value = v ∧
    p.2.registry.peek? id = some k' ∧ k'.value = v'

theorem Ready.read (h : g.Ready c) {id : VertexId} {k : Registration}
    (hk : c.registry.peek? id = some k) :
    g.catalog.read g.language id = some ⟨k.node, c.bindings.view k.value⟩ := by
  rw [← h.language]
  exact h.faithful.read hk

theorem Met.same (h : g.Met p v v') (hp : g.course.Step p p) :
    ∃ id r, g.catalog.read g.language id = some r ∧ p.1.bindings.view v = r.value ∧
      p.2.bindings.view v' = r.value ∧ p.1.nodeAt? id = some r.node ∧ p.2.nodeAt? id = some r.node ∧
      p.1.registry.contains id = true ∧ p.2.registry.contains id = true := by
  obtain ⟨id, k, k', hk, rfl, hk', rfl⟩ := h
  have hread := hp.1.ready.read hk
  have hsame := (hp.2.ready.read hk').symm.trans hread
  rw [Option.some.injEq, Reading.mk.injEq] at hsame
  refine ⟨id, _, hread, rfl, hsame.2, ?_, ?_, ?_, ?_⟩
  · unfold Context.nodeAt?
    rw [hk]
    rfl
  · unfold Context.nodeAt?
    rw [hk', ← hsame.1]
    rfl
  · unfold Registry.contains
    rw [hk]
    rfl
  · unfold Registry.contains
    rw [hk']
    rfl

theorem Met.twins (h : g.Met p v v') (hp : g.course.Step p p) : g.Twins p v v' := by
  obtain ⟨id, r, hread, hv, hv', -, -, hc, hc'⟩ := h.same hp
  exact ⟨id, r, hread, hv, hv', fun _ => ⟨hc, hc'⟩⟩

theorem Met.alike (h : g.Met p v v') (h₁ : p.1.Alike q.1) (h₂ : p.2.Alike q.2) : g.Met q v v' := by
  obtain ⟨id, k, k', hk, hv, hk', hv'⟩ := h
  exact ⟨id, k, k', (h₁.peek? id).trans hk, hv, (h₂.peek? id).trans hk', hv'⟩

/-! ### Predicates and columns -/

theorem wp₂_test_of_node (accepts : ValuePredicate) (hp : g.course.Step p p) {id : VertexId}
    {r : Reading} (hread : g.catalog.read g.language id = some r)
    (hv : p.1.bindings.view v = r.value) (hv' : p.2.bindings.view v' = r.value)
    (hn : p.1.nodeAt? id = some r.node) (hn' : p.2.nodeAt? id = some r.node) :
    wp₂ g.course (accepts.test v) (accepts.test v')
      (fun yes yes' q => yes = yes' ∧ p.1.Alike q.1 ∧ p.2.Alike q.2) p := by
  obtain ⟨rfl, howned⟩ := Catalog.read_eq_some hread
  refine wp₂_of_wp (accepts.wp_test (howned.owns hv) hn) (accepts.wp_test (howned.owns hv') hn')
    fun yes c yes' c' h h' => ?_
  refine ⟨⟨hp.1.ready.alike h.2, hp.2.ready.alike h'.2⟩, ?_, h.2, h'.2⟩
  rw [h.1, h'.1, hv, hv']

theorem Ready.nodeAt?_of_contains (h : g.Ready c) {id : VertexId} {r : Reading}
    (hread : g.catalog.read g.language id = some r) (hc : c.registry.contains id = true) :
    c.nodeAt? id = some r.node := by
  unfold Registry.contains at hc
  obtain ⟨k, hk⟩ := Option.isSome_iff_exists.1 hc
  have hr := h.read hk
  rw [hread, Option.some.injEq] at hr
  unfold Context.nodeAt?
  rw [hk, hr]
  rfl

/-- A predicate answers alike for twins, if it asks for no node or nothing is forgotten. -/
theorem Twins.wp₂_test (h : g.Twins p v v') (hp : g.course.Step p p) {accepts : ValuePredicate}
    (ha : accepts.Blind ∨ g.lasting) :
    wp₂ g.course (accepts.test v) (accepts.test v') (fun yes yes' _ => yes = yes') p := by
  obtain ⟨id, r, hread, hv, hv', hreg⟩ := h
  rcases ha with hb | hl
  · refine wp₂_of_wp (hb.wp_test r.node v p.1) (hb.wp_test r.node v' p.2) fun yes c yes' c' h h' => ?_
    obtain ⟨rfl, rfl⟩ := h
    obtain ⟨rfl, rfl⟩ := h'
    exact ⟨hp, by rw [hv, hv']⟩
  · obtain ⟨hc, hc'⟩ := hreg hl
    exact wp₂_mono (wp₂_test_of_node accepts hp hread hv hv' (hp.1.ready.nodeAt?_of_contains hread hc)
      (hp.2.ready.nodeAt?_of_contains hread hc')) fun _ _ _ _ h => h.1

theorem Met.wp₂_contains (h : g.Met p v v') (hp : g.course.Step p p) {col col' : Column}
    (hc : col.Paired (g.Twins p) col') :
    wp₂ g.course (col.contains (.value v)) (col'.contains (.value v'))
      (fun yes yes' q => yes = yes' ∧ g.Met q v v') p := by
  have ht := Cell.Paired.value (h.twins hp)
  have hV := g.seenAlike p
  cases hc with
  | predicate name accepts =>
    obtain ⟨id, r, hread, hv, hv', hn, hn', -⟩ := h.same hp
    exact wp₂_mono (wp₂_test_of_node accepts hp hread hv hv' hn hn') fun _ _ q _ hy =>
      ⟨hy.1, h.alike hy.2.1 hy.2.2⟩
  | any name cells =>
    refine ⟨hp, ?_, h⟩
    show Array.any _ _ = Array.any _ _
    rw [← Array.any_toList, ← Array.any_toList]
    exact any_eq_of_forall₂ cells fun _ _ hx => hx.sameCell_eq ht hV
  | @data d d' name cells index =>
    refine ⟨hp, ?_, h⟩
    show d.contains _ _ = d'.contains _ _
    -- an index answers for values of a vertex, and the cells do for all others
    have hany := any_eq_of_forall₂ cells fun _ _ hx => hx.sameCell_eq ht hV
    unfold DataColumn.contains
    rw [ht.vertexIn_eq hV, ← Array.any_toList, ← Array.any_toList, hany]
    cases hid : DataColumn.vertexIn p.2.bindings (.value v') with
    | none => cases d.index <;> cases d'.index <;> rfl
    | some id =>
      have hindex := index id
      cases hd : d.index with
      | none =>
        rw [hd] at hindex
        rw [Option.map_eq_none_iff.1 hindex.symm]
      | some i =>
        rw [hd] at hindex
        obtain ⟨i', hi', heq⟩ := Option.map_eq_some_iff.1 hindex.symm
        rw [hi']
        exact heq.symm

end Ground

end CodeGraph
