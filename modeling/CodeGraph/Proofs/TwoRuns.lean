import Mathlib.Data.List.Forall2
import CodeGraph.Proofs.Wp

/-!
# Two runs side by side

A statement that compares two runs speaks of pairs of states. A `Course` says how a pair may change
while the runs go on, and `wp₂ C m m' R p` that `m` and `m'`, run from the two states of `p`, go that
way and end with results in the relation `R`. `wpE₂` is the same for steps that may fail, where both
must fail alike if one does, and `wpS₂` for the stages of a query.

The rules go through two programs of the same shape step by step. Where the programs differ, each is
described by its own weakest precondition (`wp₂_of_wp`, `wpE₂_of_wpE`).
-/

namespace CodeGraph

variable {ε α α' β β' σ σ' : Type}

/-! ### Outcomes that agree -/

/-- Both have a result and the results are in a relation, or both have the same error. -/
def Agree (R : α → β → Prop) : Except ε α → Except ε β → Prop
  | .ok a, .ok b => R a b
  | .error e, .error e' => e = e'
  | _, _ => False

section
variable {R R' : α → β → Prop} {x : Except ε α} {y : Except ε β}

theorem Agree.mono (h : Agree R x y) (hR : ∀ a b, R a b → R' a b) : Agree R' x y := by
  cases x <;> cases y
  · exact h
  · exact h
  · exact h
  · exact hR _ _ h

theorem Agree.bind {S : α' → β' → Prop} {f : α → Except ε α'} {g : β → Except ε β'} (h : Agree R x y)
    (hf : ∀ a b, R a b → Agree S (f a) (g b)) : Agree S (x >>= f) (y >>= g) := by
  cases x <;> cases y
  · exact h
  · exact h.elim
  · exact h.elim
  · exact hf _ _ h

theorem agree_eq_iff {x y : Except ε α} : Agree Eq x y ↔ x = y := by
  cases x <;> cases y <;> simp [Agree]

theorem agree_mapM {S : α' → β' → Prop} {f : α → Except ε α'} {g : β → Except ε β'} {xs : List α}
    {ys : List β} (h : List.Forall₂ R xs ys) (hf : ∀ a b, R a b → Agree S (f a) (g b)) :
    Agree (List.Forall₂ S) (xs.mapM f) (ys.mapM g) := by
  induction h with
  | nil => exact .nil
  | cons hab _ ih =>
    rw [List.mapM_cons, List.mapM_cons]
    exact (hf _ _ hab).bind fun _ _ hS => ih.bind fun _ _ hSs => .cons hS hSs

theorem agree_foldlM {S : α' → β' → Prop} {f : α' → α → Except ε α'} {g : β' → β → Except ε β'}
    {xs : List α} {ys : List β} (h : List.Forall₂ R xs ys)
    (hf : ∀ c d a b, S c d → R a b → Agree S (f c a) (g d b)) {c : α'} {d : β'} (hS : S c d) :
    Agree S (xs.foldlM f c) (ys.foldlM g d) := by
  induction h generalizing c d with
  | nil => exact hS
  | cons hab _ ih =>
    rw [List.foldlM_cons, List.foldlM_cons]
    exact (hf _ _ _ _ hS hab).bind fun _ _ hS => ih hS

end

/-! ### Courses -/

/-- How a pair of states may change. A pair that is reached may stay as it is. -/
structure Course (σ σ' : Type) where
  Step : σ × σ' → σ × σ' → Prop
  trans : ∀ {p q r}, Step p q → Step q r → Step p r
  stay : ∀ {p q}, Step p q → Step q q

def Course.keeping (C : Course σ σ') (G : σ' → Prop) : Course σ σ' where
  Step p q := C.Step p q ∧ G q.2
  trans h h' := ⟨C.trans h.1 h'.1, h'.2⟩
  stay h := ⟨C.stay h.1, h.2⟩

/-- The results of two runs and the states that they leave are in the relation, and the states are
reached by the course. -/
def wp₂ (C : Course σ σ') (m : StateM σ α) (m' : StateM σ' β) (R : α → β → σ × σ' → Prop)
    (p : σ × σ') : Prop :=
  wp m (fun a s => wp m' (fun b s' => C.Step p (s, s') ∧ R a b (s, s')) p.2) p.1

/-- The two runs agree: both succeed, with results in the relation, or both fail with one error. -/
def wpE₂ (C : Course σ σ') (m : ExceptT ε (StateM σ) α) (m' : ExceptT ε (StateM σ') β)
    (R : α → β → σ × σ' → Prop) (p : σ × σ') : Prop :=
  wp₂ C m.run m'.run (fun x y q => Agree (R · · q) x y) p

section
variable {C : Course σ σ'} {R R' : α → β → σ × σ' → Prop} {S : α' → β' → σ × σ' → Prop}
  {p : σ × σ'}

theorem wp₂_mono {m : StateM σ α} {m' : StateM σ' β} (h : wp₂ C m m' R p)
    (hR : ∀ a b q, C.Step p q → R a b q → R' a b q) : wp₂ C m m' R' p :=
  ⟨h.1, hR _ _ _ h.1 h.2⟩

theorem wp₂_bind {m : StateM σ α} {m' : StateM σ' β} {f : α → StateM σ α'} {f' : β → StateM σ' β'}
    (h : wp₂ C m m' R p) (hf : ∀ a b q, C.Step p q → R a b q → wp₂ C (f a) (f' b) S q) :
    wp₂ C (m >>= f) (m' >>= f') S p := by
  obtain ⟨hq, hR⟩ := h
  obtain ⟨hr, hS⟩ := hf _ _ _ hq hR
  exact ⟨C.trans hq hr, hS⟩

theorem wp₂_pure {a : α} {b : β} (hp : C.Step p p) (h : R a b p) : wp₂ C (pure a) (pure b) R p :=
  ⟨hp, h⟩

theorem wp₂_keeping {G : σ' → Prop} {Q : β → σ' → Prop} {m : StateM σ α} {m' : StateM σ' β}
    (h : wp₂ C m m' R p) (h' : wp m' (fun b s' => G s' ∧ Q b s') p.2) :
    wp₂ (C.keeping G) m m' (fun a b q => R a b q ∧ Q b q.2) p :=
  ⟨⟨h.1, h'.1⟩, h.2, h'.2⟩

theorem wp₂_of_wp {m : StateM σ α} {m' : StateM σ' β} {Q : α → σ → Prop} {Q' : β → σ' → Prop}
    (h : wp m Q p.1) (h' : wp m' Q' p.2)
    (hR : ∀ a s b s', Q a s → Q' b s' → C.Step p (s, s') ∧ R a b (s, s')) : wp₂ C m m' R p :=
  hR _ _ _ _ h h'

theorem wpE₂_mono {m : ExceptT ε (StateM σ) α} {m' : ExceptT ε (StateM σ') β} (h : wpE₂ C m m' R p)
    (hR : ∀ a b q, C.Step p q → R a b q → R' a b q) : wpE₂ C m m' R' p :=
  wp₂_mono h fun _ _ q hq hxy => hxy.mono fun a b => hR a b q hq

theorem wpE₂_bind {m : ExceptT ε (StateM σ) α} {m' : ExceptT ε (StateM σ') β}
    {f : α → ExceptT ε (StateM σ) α'} {f' : β → ExceptT ε (StateM σ') β'} (h : wpE₂ C m m' R p)
    (hf : ∀ a b q, C.Step p q → R a b q → wpE₂ C (f a) (f' b) S q) :
    wpE₂ C (m >>= f) (m' >>= f') S p := by
  unfold wpE₂
  rw [ExceptT.run_bind, ExceptT.run_bind]
  refine wp₂_bind h fun x y q hq hxy => ?_
  cases x <;> cases y
  · exact wp₂_pure (C.stay hq) hxy
  · exact hxy.elim
  · exact hxy.elim
  · exact hf _ _ q hq hxy

theorem wpE₂_pure {a : α} {b : β} (hp : C.Step p p) (h : R a b p) :
    wpE₂ C (pure a : ExceptT ε (StateM σ) α) (pure b) R p := ⟨hp, h⟩

theorem wpE₂_get (hp : C.Step p p) :
    wpE₂ C (get : ExceptT ε (StateM σ) σ) (get : ExceptT ε (StateM σ') σ')
      (fun s s' q => q = p ∧ s = p.1 ∧ s' = p.2) p := ⟨hp, rfl, rfl, rfl⟩

theorem wpE₂_lift {m : StateM σ α} {m' : StateM σ' β} (h : wp₂ C m m' R p) :
    wpE₂ C (liftM m : ExceptT ε (StateM σ) α) (liftM m') R p := h

theorem wpE₂_except {T : α → β → Prop} {x : Except ε α} {y : Except ε β} (hp : C.Step p p)
    (h : Agree T x y) :
    wpE₂ C (liftM x : ExceptT ε (StateM σ) α) (liftM y) (fun a b q => q = p ∧ T a b) p := by
  cases x <;> cases y
  · exact ⟨hp, h⟩
  · exact h.elim
  · exact h.elim
  · exact ⟨hp, rfl, h⟩

theorem wpE₂_of_wpE {m : ExceptT ε (StateM σ) α} {m' : ExceptT ε (StateM σ') β} {Q : α → σ → Prop}
    {Q' : β → σ' → Prop} (h : wpE m Q Never p.1) (h' : wpE m' Q' Never p.2)
    (hR : ∀ a s b s', Q a s → Q' b s' → C.Step p (s, s') ∧ R a b (s, s')) : wpE₂ C m m' R p := by
  refine wp₂_of_wp h h' fun x s y s' hx hy => ?_
  cases x with
  | error e => exact hx.elim
  | ok a =>
    cases y with
    | error e => exact hy.elim
    | ok b => exact hR _ _ _ _ hx hy

/-- What is known of the second run once the first has succeeded. -/
theorem wpE_of_wpE₂ {m : ExceptT ε (StateM σ) α} {m' : ExceptT ε (StateM σ') β} {a : α} {s : σ}
    (h : wpE₂ C m m' R p) (hrun : m.run.run p.1 = (.ok a, s)) :
    wpE m' (fun b s' => C.Step p (s, s') ∧ R a b (s, s')) Never p.2 := by
  unfold wpE₂ wp₂ wp at h
  rw [hrun] at h
  obtain ⟨hstep, hagree⟩ := h
  unfold wpE wp
  generalize m'.run.run p.2 = out at hstep hagree ⊢
  obtain ⟨x, s'⟩ := out
  cases x with
  | error e => exact hagree.elim
  | ok b => exact ⟨hstep, hagree⟩

theorem wpE₂_foldlM {f : β → α → ExceptT ε (StateM σ) β} {f' : β' → α' → ExceptT ε (StateM σ') β'}
    {V : α → α' → σ × σ' → Prop} {I : β → β' → σ × σ' → Prop} {xs : List α} {xs' : List α'}
    (hV : ∀ x x' q r, C.Step q r → V x x' q → V x x' r)
    (hstep : ∀ b b' x x' q, C.Step p q → V x x' q → I b b' q → wpE₂ C (f b x) (f' b' x') I q)
    (hp : C.Step p p) (hxs : List.Forall₂ (V · · p) xs xs') {b : β} {b' : β'} (h : I b b' p) :
    wpE₂ C (xs.foldlM f b) (xs'.foldlM f' b') I p := by
  induction xs generalizing xs' b b' p with
  | nil =>
    cases hxs
    exact wpE₂_pure hp h
  | cons x xs ih =>
    obtain ⟨x', xs', hx, hrest, rfl⟩ := List.forall₂_cons_left_iff.1 hxs
    rw [List.foldlM_cons, List.foldlM_cons]
    refine wpE₂_bind (hstep b b' x x' p hp hx h) fun c c' q hq hI => ?_
    exact ih (fun b b' x x' r hr => hstep b b' x x' r (C.trans hq hr)) (C.stay hq)
      (hrest.imp fun x x' => hV x x' p q hq) hI

theorem wp₂_mapM {f : α → StateM σ β} {f' : α' → StateM σ' β'} {V : α → α' → σ × σ' → Prop}
    {W : β → β' → σ × σ' → Prop} {xs : List α} {xs' : List α'}
    (hV : ∀ x x' q r, C.Step q r → V x x' q → V x x' r)
    (hW : ∀ y y' q r, C.Step q r → W y y' q → W y y' r)
    (hf : ∀ x x' q, C.Step p q → V x x' q → wp₂ C (f x) (f' x') W q)
    (hp : C.Step p p) (hxs : List.Forall₂ (V · · p) xs xs') :
    wp₂ C (xs.mapM f) (xs'.mapM f') (fun ys ys' q => List.Forall₂ (W · · q) ys ys') p := by
  induction xs generalizing xs' p with
  | nil =>
    cases hxs
    exact wp₂_pure hp .nil
  | cons x xs ih =>
    obtain ⟨x', xs', hx, hrest, rfl⟩ := List.forall₂_cons_left_iff.1 hxs
    rw [List.mapM_cons, List.mapM_cons]
    refine wp₂_bind (hf x x' p hp hx) fun y y' q hq hy => ?_
    refine wp₂_bind (ih (fun x x' r hr => hf x x' r (C.trans hq hr)) (C.stay hq)
      (hrest.imp fun x x' => hV x x' p q hq)) fun ys ys' r hr hys => ?_
    exact wp₂_pure (C.stay hr) (.cons (hW y y' q r hr hy) hys)

end

/-! ### Steps on worlds -/

def Course.onGraph (C : Course Context Context) : Course World World where
  Step p q := C.Step (p.1.graph, p.2.graph) (q.1.graph, q.2.graph)
  trans := C.trans
  stay := C.stay

section
variable {C : Course Context Context} {p : World × World}

theorem wp₂_bindings {D : Course World World} (hp : D.Step p p) :
    wp₂ D World.bindings World.bindings
      (fun b b' q => q = p ∧ b = p.1.graph.bindings ∧ b' = p.2.graph.bindings) p :=
  ⟨hp, rfl, rfl, rfl⟩

theorem wp₂_onGraph {m : StateM Context α} {m' : StateM Context β}
    {R : α → β → Context × Context → Prop} (h : wp₂ C m m' R (p.1.graph, p.2.graph)) :
    wp₂ C.onGraph (World.onGraph m) (World.onGraph m')
      (fun a b q => R a b (q.1.graph, q.2.graph)) p := h

theorem wpE₂_request (hp : C.onGraph.Step p p) (r : Request) {x y : Except Error α} (h : x = y) :
    wpE₂ C.onGraph (do World.record r; liftM x : QueryM α) (do World.record r; liftM y)
      (fun a b _ => a = b) p := by
  refine wpE₂_bind (R := fun _ _ _ => True) ⟨hp, trivial⟩ fun _ _ q hq _ => ?_
  exact wpE₂_mono (wpE₂_except (C.onGraph.stay hq) (agree_eq_iff.2 h)) fun _ _ _ _ h => h.2

theorem wpE₂_resolving {m : Resolving α} {m' : Resolving β}
    {R : α → β → Context × Context → Prop} (h : wpE₂ C m m' R (p.1.graph, p.2.graph)) :
    wpE₂ C.onGraph (World.resolving m) (World.resolving m')
      (fun a b q => R a b (q.1.graph, q.2.graph)) p := h

end

/-! ### Stages -/

/-- `wpE₂` for stages, whose states are queries in worlds. -/
def wpS₂ (C : Course (Query × World) (Query × World)) (m : StageM α) (m' : StageM β)
    (R : α → β → (Query × World) × (Query × World) → Prop)
    (p : (Query × World) × (Query × World)) : Prop :=
  wp (m.run.run p.1.1) (fun x w => wp (m'.run.run p.2.1) (fun y w' =>
    C.Step p ((x.2, w), (y.2, w')) ∧ Agree (R · · ((x.2, w), (y.2, w'))) x.1 y.1) p.2.2) p.1.2

section
variable {C : Course (Query × World) (Query × World)} {p : (Query × World) × (Query × World)}
  {R R' : α → β → (Query × World) × (Query × World) → Prop}
  {S : α' → β' → (Query × World) × (Query × World) → Prop}

theorem wpS₂_mono {m : StageM α} {m' : StageM β} (h : wpS₂ C m m' R p)
    (hR : ∀ a b q, C.Step p q → R a b q → R' a b q) : wpS₂ C m m' R' p :=
  ⟨h.1, h.2.mono fun a b => hR a b _ h.1⟩

theorem wpS₂_bind {m : StageM α} {m' : StageM β} {f : α → StageM α'} {f' : β → StageM β'}
    (h : wpS₂ C m m' R p) (hf : ∀ a b q, C.Step p q → R a b q → wpS₂ C (f a) (f' b) S q) :
    wpS₂ C (m >>= f) (m' >>= f') S p := by
  unfold wpS₂ at h ⊢
  rw [ExceptT.run_bind, StateT.run_bind, wp_bind, ExceptT.run_bind, StateT.run_bind]
  simp only [wp_bind]
  unfold wp at h ⊢
  rcases hm : (m.run.run p.1.1).run p.1.2 with ⟨⟨x, q⟩, w⟩
  rcases hm' : (m'.run.run p.2.1).run p.2.2 with ⟨⟨y, q'⟩, w'⟩
  rw [hm, hm'] at h
  obtain ⟨hstep, hxy⟩ := h
  cases x <;> cases y
  · exact ⟨hstep, hxy⟩
  · exact hxy.elim
  · exact hxy.elim
  · obtain ⟨hstep', hS⟩ := hf _ _ _ hstep hxy
    exact ⟨C.trans hstep hstep', hS⟩

theorem wpS₂_pure {a : α} {b : β} (hp : C.Step p p) (h : R a b p) :
    wpS₂ C (pure a) (pure b) R p := ⟨hp, h⟩

theorem wpS₂_except {T : α → β → Prop} {x : Except Error α} {y : Except Error β} (hp : C.Step p p)
    (h : Agree T x y) : wpS₂ C (liftM x) (liftM y) (fun a b q => q = p ∧ T a b) p := by
  cases x <;> cases y
  · exact ⟨hp, h⟩
  · exact h.elim
  · exact h.elim
  · exact ⟨hp, rfl, h⟩

theorem wpS₂_of_never {m : StageM α} {m' : StageM β} {Q : α → Query → World → Prop}
    {Q' : β → Query → World → Prop} (h : wpS m Q NeverS p.1.1 p.1.2)
    (h' : wpS m' Q' NeverS p.2.1 p.2.2)
    (hR : ∀ a q w b q' w', Q a q w → Q' b q' w' →
      C.Step p ((q, w), (q', w')) ∧ R a b ((q, w), (q', w'))) : wpS₂ C m m' R p := by
  unfold wpS wp at h h'
  unfold wpS₂ wp
  rcases hm : (m.run.run p.1.1).run p.1.2 with ⟨⟨x, q⟩, w⟩
  rcases hm' : (m'.run.run p.2.1).run p.2.2 with ⟨⟨y, q'⟩, w'⟩
  rw [hm] at h
  rw [hm'] at h'
  cases x with
  | error e => exact h.elim
  | ok a =>
    cases y with
    | error e => exact h'.elim
    | ok b => exact hR _ _ _ _ _ _ h h'

theorem wpS₂_put {q q' : Query} (h : C.Step p ((q, p.1.2), (q', p.2.2))) :
    wpS₂ C (Stage.put q) (Stage.put q') (fun _ _ r => r = ((q, p.1.2), (q', p.2.2))) p := ⟨h, rfl⟩

theorem wpS₂_update {f f' : Query → Query} (h : C.Step p ((f p.1.1, p.1.2), (f' p.2.1, p.2.2))) :
    wpS₂ C (Stage.update f) (Stage.update f')
      (fun _ _ r => r = ((f p.1.1, p.1.2), (f' p.2.1, p.2.2))) p := ⟨h, rfl⟩

theorem wpS₂_query (hp : C.Step p p) :
    wpS₂ C Stage.query Stage.query (fun q q' r => r = p ∧ q = p.1.1 ∧ q' = p.2.1) p :=
  ⟨hp, rfl, rfl, rfl⟩

end

end CodeGraph
