import CodeGraph.Query.Pipeline

/-!
# Weakest preconditions

Every effectful function of the library is a state monad, with failures or without. `wp m Q s` says
that what `m` returns from `s` and the state it leaves satisfy `Q`; `wpE` has one postcondition for
success and one for failure, and `wpS` is `wpE` for the stages of a query, whose state is a query in
a world. A step that cannot fail is one whose failure has the postcondition `Never`.

The rules are equivalences, so that a function is opened by rewriting with them, up to a call whose
own statement is then put in by `wp_mono`, `wpE_mono` or `wpS_mono`.
-/

namespace CodeGraph

variable {σ ε α β : Type}

/-- What `m` returns from `s` and the state it leaves satisfy `Q`. -/
def wp (m : StateM σ α) (Q : α → σ → Prop) (s : σ) : Prop := Q (m.run s).1 (m.run s).2

/-- What `m` returns and leaves satisfies `Q`, and if it fails, the error and what it leaves satisfy
`E`. -/
def wpE (m : ExceptT ε (StateM σ) α) (Q : α → σ → Prop) (E : ε → σ → Prop) (s : σ) : Prop :=
  wp m.run (fun r s' => match r with | .ok a => Q a s' | .error e => E e s') s

/-- The postcondition of a failure that does not happen. -/
def Never : ε → σ → Prop := fun _ _ => False

section
variable {Q Q' : α → σ → Prop} {E E' : ε → σ → Prop} {s : σ}

theorem wp_mono {m : StateM σ α} (h : wp m Q s) (hQ : ∀ a s', Q a s' → Q' a s') : wp m Q' s :=
  hQ _ _ h

theorem wp_bind {m : StateM σ α} {f : α → StateM σ β} {Q : β → σ → Prop} :
    wp (m >>= f) Q s ↔ wp m (fun a s' => wp (f a) Q s') s := Iff.rfl

theorem wp_pure {a : α} : wp (pure a) Q s ↔ Q a s := Iff.rfl

theorem wp_run {m : ExceptT ε (StateM σ) α} {Q : Except ε α → σ → Prop} :
    wp m.run Q s ↔ wpE m (fun a => Q (.ok a)) (fun e => Q (.error e)) s := by
  unfold wpE wp
  cases (m.run.run s).1 <;> exact Iff.rfl

theorem wp_foldlM {f : β → α → StateM σ β} {xs : List α} (I : List α → β → σ → Prop)
    (hstep : ∀ done x b s, x ∈ xs → I done b s → wp (f b x) (I (done ++ [x])) s)
    {b : β} (h : I [] b s) : wp (xs.foldlM f b) (I xs) s := by
  induction xs generalizing I b s with
  | nil => exact h
  | cons x xs ih =>
    rw [List.foldlM_cons, wp_bind]
    refine wp_mono (hstep [] x b s (List.mem_cons_self ..) h) fun b' s' h' => ?_
    refine ih (fun done => I (x :: done)) (fun done y c t hy hI => ?_) h'
    exact hstep (x :: done) y c t (List.mem_cons_of_mem _ hy) hI

theorem wp_anyM {m : α → StateM σ Bool} {f : α → Bool} {I : σ → Prop} {xs : List α}
    (h : ∀ x ∈ xs, ∀ s, I s → wp (m x) (fun yes s' => yes = f x ∧ I s') s) (hs : I s) :
    wp (xs.anyM m) (fun yes s' => yes = xs.any f ∧ I s') s := by
  induction xs generalizing s with
  | nil => exact ⟨rfl, hs⟩
  | cons x xs ih =>
    rw [List.anyM_cons, wp_bind]
    refine wp_mono (h x (List.mem_cons_self ..) s hs) fun yes s' hy => ?_
    obtain ⟨rfl, hs'⟩ := hy
    rw [List.any_cons]
    cases f x with
    | true => exact ⟨rfl, hs'⟩
    | false => exact ih (fun y hy => h y (List.mem_cons_of_mem _ hy)) hs'

theorem wp_mapM {f : α → StateM σ β} {g : α → β} {I : σ → Prop} {xs : List α}
    (h : ∀ x ∈ xs, ∀ s, I s → wp (f x) (fun y s' => y = g x ∧ I s') s) (hs : I s) :
    wp (xs.mapM f) (fun ys s' => ys = xs.map g ∧ I s') s := by
  induction xs generalizing s with
  | nil => exact ⟨rfl, hs⟩
  | cons x xs ih =>
    rw [List.mapM_cons, wp_bind]
    refine wp_mono (h x (List.mem_cons_self ..) s hs) fun y s' hy => ?_
    obtain ⟨rfl, hs'⟩ := hy
    rw [wp_bind]
    refine wp_mono (ih (fun z hz => h z (List.mem_cons_of_mem _ hz)) hs') fun ys s'' hys => ?_
    obtain ⟨rfl, hs''⟩ := hys
    exact ⟨rfl, hs''⟩

theorem wpE_mono {m : ExceptT ε (StateM σ) α} (h : wpE m Q E s)
    (hQ : ∀ a s', Q a s' → Q' a s') (hE : ∀ e s', E e s' → E' e s') : wpE m Q' E' s := by
  unfold wpE wp at h ⊢
  cases hr : (m.run.run s).1 with
  | ok a => rw [hr] at h; exact hQ _ _ h
  | error e => rw [hr] at h; exact hE _ _ h

theorem wpE_trivial {m : ExceptT ε (StateM σ) α} :
    wpE m (fun _ _ => True) (fun _ _ => True) s := by
  unfold wpE wp
  cases (m.run.run s).1 <;> trivial

theorem wpE_and {m : ExceptT ε (StateM σ) α} (h : wpE m Q E s) (h' : wpE m Q' E' s) :
    wpE m (fun a s' => Q a s' ∧ Q' a s') E s := by
  unfold wpE wp at h h' ⊢
  cases hr : (m.run.run s).1 with
  | ok a => rw [hr] at h h'; exact ⟨h, h'⟩
  | error e => rw [hr] at h; exact h

theorem wpE_and_run {m : ExceptT ε (StateM σ) α} (h : wpE m Q E s) :
    wpE m (fun a s' => m.run.run s = (.ok a, s') ∧ Q a s') E s := by
  unfold wpE wp at h ⊢
  rcases hr : m.run.run s with ⟨r, s'⟩
  rw [hr] at h
  cases r with
  | ok a => exact ⟨rfl, h⟩
  | error e => exact h

theorem wpE_of_never {m : ExceptT ε (StateM σ) α} (h : wpE m Q Never s)
    (hQ : ∀ a s', Q a s' → Q' a s') : wpE m Q' E s :=
  wpE_mono h hQ fun _ _ h => h.elim

theorem wpE_bind {m : ExceptT ε (StateM σ) α} {f : α → ExceptT ε (StateM σ) β} {Q : β → σ → Prop} :
    wpE (m >>= f) Q E s ↔ wpE m (fun a s' => wpE (f a) Q E s') E s := by
  show wp (m >>= f).run _ s ↔ wp m.run _ s
  rw [ExceptT.run_bind, wp_bind]
  unfold wp
  cases (m.run.run s).1 <;> exact Iff.rfl

theorem wpE_pure {a : α} : wpE (pure a) Q E s ↔ Q a s := Iff.rfl

theorem wpE_get {Q : σ → σ → Prop} : wpE get Q E s ↔ Q s s := Iff.rfl

theorem wpE_lift {m : StateM σ α} : wpE (liftM m) Q E s ↔ wp m Q s := Iff.rfl

theorem wpE_except {x : Except ε α} :
    wpE (liftM x) Q E s ↔ match x with | .ok a => Q a s | .error e => E e s := by
  cases x <;> exact Iff.rfl

theorem wpE_foldlM {f : β → α → ExceptT ε (StateM σ) β} {xs : List α} (I : List α → β → σ → Prop)
    (hstep : ∀ done x b s, x ∈ xs → I done b s → wpE (f b x) (I (done ++ [x])) E s)
    {b : β} (h : I [] b s) : wpE (xs.foldlM f b) (I xs) E s := by
  induction xs generalizing I b s with
  | nil => exact h
  | cons x xs ih =>
    rw [List.foldlM_cons, wpE_bind]
    refine wpE_mono (hstep [] x b s (List.mem_cons_self ..) h) (fun b' s' h' => ?_) fun _ _ he => he
    refine ih (fun done => I (x :: done)) (fun done y c t hy hI => ?_) h'
    exact hstep (x :: done) y c t (List.mem_cons_of_mem _ hy) hI

theorem wpE_mapM {f : α → ExceptT ε (StateM σ) β} {g : α → β} {I : σ → Prop} {xs : List α}
    (h : ∀ x ∈ xs, ∀ s, I s → wpE (f x) (fun y s' => y = g x ∧ I s') E s) (hs : I s) :
    wpE (xs.mapM f) (fun ys s' => ys = xs.map g ∧ I s') E s := by
  induction xs generalizing s with
  | nil => exact ⟨rfl, hs⟩
  | cons x xs ih =>
    rw [List.mapM_cons, wpE_bind]
    refine wpE_mono (h x (List.mem_cons_self ..) s hs) (fun y s' hy => ?_) fun _ _ he => he
    obtain ⟨rfl, hs'⟩ := hy
    rw [wpE_bind]
    refine wpE_mono (ih (fun z hz => h z (List.mem_cons_of_mem _ hz)) hs') (fun ys s'' hys => ?_)
      fun _ _ he => he
    obtain ⟨rfl, hs''⟩ := hys
    exact ⟨rfl, hs''⟩

theorem wpE_of_run {m : ExceptT ε (StateM σ) α} {a : α} {s' : σ}
    (h : m.run.run s = (.ok a, s')) : wpE m Q E s ↔ Q a s' := by
  unfold wpE wp
  rw [h]

theorem run_bind_of_run {m : ExceptT ε (StateM σ) α} {a : α} {s' : σ} (f : α → ExceptT ε (StateM σ) β)
    (h : m.run.run s = (.ok a, s')) : (m >>= f).run.run s = (f a).run.run s' := by
  rw [ExceptT.run_bind, StateT.run_bind, h]
  rfl

theorem exists_outcome_of_wpE {m : ExceptT ε (StateM σ) α} (h : wpE m Q E s) :
    ∃ r s', m.run.run s = (r, s') ∧ match r with | .ok a => Q a s' | .error e => E e s' :=
  ⟨_, _, rfl, h⟩

theorem exists_of_wpE {m : ExceptT ε (StateM σ) α} (h : wpE m Q Never s) :
    ∃ a s', m.run.run s = (.ok a, s') ∧ Q a s' := by
  unfold wpE wp at h
  rcases hr : m.run.run s with ⟨r, s'⟩
  rw [hr] at h
  cases r with
  | ok a => exact ⟨a, s', rfl, h⟩
  | error e => exact h.elim

end

/-! ### Steps on a world -/

section
variable {Q : α → World → Prop} {E : Error → World → Prop} {w : World}

theorem wp_onGraph {m : StateM Context α} :
    wp (World.onGraph m) Q w ↔ wp m (fun a c => Q a { w with graph := c }) w.graph := Iff.rfl

theorem wp_record {r : Request} {Q : Unit → World → Prop} :
    wp (World.record r) Q w ↔ Q () { w with requests := w.requests.push r } := Iff.rfl

theorem wp_count {f : Profile → Profile} {Q : Unit → World → Prop} :
    wp (World.count f) Q w ↔ Q () { w with profile := f w.profile } := Iff.rfl

theorem wpE_resolving {m : Resolving α} :
    wpE (World.resolving m) Q E w ↔
      wpE m (fun a c => Q a { w with graph := c }) (fun e c => E e { w with graph := c })
        w.graph := Iff.rfl

theorem wp_bindings {Q : Bindings → World → Prop} :
    wp World.bindings Q w ↔ Q w.graph.bindings w := Iff.rfl

theorem wpE_isRegistered {id : VertexId} {Q : Bool → World → Prop} :
    wpE (World.isRegistered id) Q E w ↔ Q (w.graph.registry.contains id) w := Iff.rfl

theorem wpE_valueOf? {key : NodeKey} {Q : Option Value → World → Prop} :
    wpE (World.valueOf? key) Q E w ↔
      wp (Context.valueOf? key) (fun v g => Q v { w with graph := g }) w.graph := Iff.rfl

theorem wpE_vertex {a : App} {id : VertexId} {Q : Option Vertex → World → Prop} :
    wpE (World.vertex a id) Q E w ↔
      match a.store.vertex id with
      | .ok v => Q v { w with requests := w.requests.push (.vertex id) }
      | .error e => E e { w with requests := w.requests.push (.vertex id) } := by
  unfold World.vertex
  rw [wpE_bind, wpE_lift, wp_record, wpE_except]
  cases a.store.vertex id <;> exact Iff.rfl

theorem wpE_outEdges {a : App} {id : VertexId} {label : Option String}
    {Q : List Edge → World → Prop} :
    wpE (World.outEdges a id label) Q E w ↔
      match a.store.outEdges id label with
      | .ok es => Q es { w with requests := w.requests.push (.edges id label) }
      | .error e => E e { w with requests := w.requests.push (.edges id label) } := by
  unfold World.outEdges
  rw [wpE_bind, wpE_lift, wp_record, wpE_except]
  cases a.store.outEdges id label <;> exact Iff.rfl

theorem wpE_member {c : Column} {cell : Cell Ref} {Q : Bool → World → Prop} :
    wpE (World.member c cell) Q E w ↔
      wp (c.contains cell) (fun a g => Q a { w with graph := g }) w.graph := Iff.rfl

end

/-! ### Stages -/

/-- What a stage returns and the query and the world that it leaves satisfy `Q`, and if it fails,
`E`. -/
def wpS (m : StageM α) (Q : α → Query → World → Prop) (E : Error → Query → World → Prop)
    (q : Query) (w : World) : Prop :=
  wp (m.run.run q)
    (fun r w' => match r.1 with | .ok a => Q a r.2 w' | .error e => E e r.2 w') w

def NeverS : Error → Query → World → Prop := fun _ _ _ => False

section
variable {Q Q' : α → Query → World → Prop} {E E' : Error → Query → World → Prop} {q : Query}
  {w : World}

theorem wpS_mono {m : StageM α} (h : wpS m Q E q w) (hQ : ∀ a q' w', Q a q' w' → Q' a q' w')
    (hE : ∀ e q' w', E e q' w' → E' e q' w') : wpS m Q' E' q w := by
  unfold wpS wp at h ⊢
  rcases hr : (m.run.run q).run w with ⟨⟨r, q'⟩, w'⟩
  rw [hr] at h
  cases r with
  | ok a => exact hQ _ _ _ h
  | error e => exact hE _ _ _ h

theorem wpS_of_never {m : StageM α} (h : wpS m Q NeverS q w)
    (hQ : ∀ a q' w', Q a q' w' → Q' a q' w') : wpS m Q' E q w :=
  wpS_mono h hQ fun _ _ _ h => h.elim

theorem wpS_bind {m : StageM α} {f : α → StageM β} {Q : β → Query → World → Prop} :
    wpS (m >>= f) Q E q w ↔ wpS m (fun a q' w' => wpS (f a) Q E q' w') E q w := by
  show wp ((m >>= f).run.run q) _ w ↔ wp (m.run.run q) _ w
  rw [ExceptT.run_bind, StateT.run_bind, wp_bind]
  unfold wp
  rcases (m.run.run q).run w with ⟨⟨r, q'⟩, w'⟩
  cases r <;> exact Iff.rfl

theorem wpS_except {x : Except Error α} :
    wpS (liftM x) Q E q w ↔ match x with | .ok a => Q a q w | .error e => E e q w := by
  cases x <;> exact Iff.rfl

theorem wpS_query {Q : Query → Query → World → Prop} : wpS Stage.query Q E q w ↔ Q q q w := Iff.rfl

theorem wpS_update {f : Query → Query} {Q : Unit → Query → World → Prop} :
    wpS (Stage.update f) Q E q w ↔ Q () (f q) w := Iff.rfl

theorem wpS_ofWorldM {m : WorldM α} :
    wpS (Stage.ofWorldM m) Q E q w ↔ wp m (fun a w' => Q a q w') w := Iff.rfl

theorem wpS_ofQueryM {m : QueryM α} :
    wpS (Stage.ofQueryM m) Q E q w ↔ wpE m (fun a w' => Q a q w') (fun e w' => E e q w') w := by
  have h : ((Stage.ofQueryM m).run.run q).run w = (((m.run.run w).1, q), (m.run.run w).2) := rfl
  unfold wpS wpE wp
  rw [h]
  cases (m.run.run w).1 <;> exact Iff.rfl

theorem run_eq_of_wpS {m m' : StageM α} {q' : Query} {w' : World}
    (h : ∀ Q E, wpS m' Q E q' w' → wpS m Q E q w) : (q.run m).run w = (q'.run m').run w' := by
  have hm := h (fun a q'' w'' => ((.ok a, q''), w'') = (q'.run m').run w')
    (fun e q'' w'' => ((.error e, q''), w'') = (q'.run m').run w')
  unfold wpS wp at hm
  show (m.run.run q).run w = (m'.run.run q').run w'
  rcases hr : (m.run.run q).run w with ⟨⟨r, q''⟩, w''⟩
  rw [hr] at hm
  cases r with
  | ok a => exact hm (by rcases hr' : (m'.run.run q').run w' with ⟨⟨_ | _, _⟩, _⟩ <;> exact hr'.symm)
  | error e => exact hm (by rcases hr' : (m'.run.run q').run w' with ⟨⟨_ | _, _⟩, _⟩ <;> exact hr'.symm)

theorem exists_of_wpS {m : StageM α} (h : wpS m Q NeverS q w) :
    ∃ a q' w', (q.run m).run w = ((.ok a, q'), w') ∧ Q a q' w' := by
  unfold wpS wp at h
  show ∃ a q' w', (m.run.run q).run w = _ ∧ _
  rcases hr : (m.run.run q).run w with ⟨⟨r, q'⟩, w'⟩
  rw [hr] at h
  cases r with
  | ok a => exact ⟨a, q', w', rfl, h⟩
  | error e => exact h.elim

end

end CodeGraph
