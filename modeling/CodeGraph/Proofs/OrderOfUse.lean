import CodeGraph.Proofs.Acceptance
import CodeGraph.Proofs.TwoRuns

/-!
# The order of use

A registry lists its entries by last use, and the order says which of them is forgotten next. Asking a
predicate or a column changes nothing but that order (`OnlyUses`). Using the entry that was used last
does not even change the order (`Registry.Latest`), and if nothing is forgotten the order makes no
difference to what a step does (`Steady`).
-/

namespace CodeGraph

/-! ### The entry that was used last -/

namespace Registry
variable {r : Registry} {id : VertexId} {k : Registration}

/-- Using the entry of a vertex gives this pair and changes nothing. -/
def Latest (r : Registry) (id : VertexId) (k : Registration) : Prop := r.touch? id = (some k, r)

theorem Latest.peek? (h : r.Latest id k) : r.peek? id = some k := by
  rw [← touch?_fst, h]

theorem latest_of_cons {es : List (VertexId × Registration)} (he : r.entries = (id, k) :: es)
    (hes : ∀ e ∈ es, e.1 ≠ id) : r.Latest id k := by
  have hpeek : r.peek? id = some k := by
    unfold peek?
    rw [he, List.lookup_cons, beq_self_eq_true]
  have hothers : r.others id = es := by
    unfold others
    rw [he, List.filter_cons_of_neg (by simp), List.filter_eq_self]
    simpa using hes
  unfold Latest touch? moveToFront
  rw [hpeek, hothers]
  dsimp only
  rw [← he]

theorem latest_touch? (h : r.peek? id = some k) : (r.touch? id).2.Latest id k := by
  unfold touch?
  rw [h]
  have hfront : (r.moveToFront id k).entries = (id, k) :: r.others id := rfl
  exact latest_of_cons hfront fun e he => by simpa using (List.mem_filter.1 he).2

theorem latest_register {new : Registration} (hroom : r.capacity ≠ some 0) :
    (r.register new).2.Latest new.id (r.register new).1 := by
  cases h : r.peek? new.id with
  | some found =>
    rw [register_of_peek? h]
    exact latest_touch? h
  | none =>
    rw [register_of_none h]
    have hne : ∀ e ∈ r.entries, e.1 ≠ new.id := fun e he heq =>
      absurd (List.lookup_eq_none_iff.1 h e he) (by simp [heq])
    cases hc : r.capacity with
    | none => exact latest_of_cons rfl hne
    | some n =>
      cases n with
      | zero => exact absurd hc hroom
      | succ n => exact latest_of_cons rfl fun e he => hne e (List.mem_of_mem_take he)

theorem peek?_register {new : Registration} (hn : r.capacity = none) (id : VertexId) :
    (r.register new).2.peek? id = if id = new.id then some (r.register new).1 else r.peek? id := by
  by_cases hid : id = new.id
  · subst hid
    rw [if_pos rfl]
    exact peek?_register_self (by rw [hn]; exact Option.some_ne_none 0 |>.symm)
  · rw [if_neg hid]
    cases h : r.peek? new.id with
    | some found => rw [register_of_peek? h, peek?_touch?]
    | none =>
      rw [register_of_none h, hn]
      show List.lookup id ((new.id, new) :: r.entries) = _
      rw [List.lookup_cons, beq_false_of_ne hid]
      rfl

theorem register_fst (r : Registry) (new : Registration) :
    (r.register new).1 = (r.peek? new.id).getD new := by
  cases h : r.peek? new.id with
  | some found => rw [register_of_peek? h]; rfl
  | none => rw [register_of_none h]; rfl

end Registry

namespace Context
variable {α β ε : Type} {c c' : Context} {id : VertexId}

theorem Alike.symm (h : c.Alike c') : c'.Alike c :=
  ⟨h.language.symm, h.bindings.symm, h.staged.symm, h.notices.symm, h.capacity.symm, fun id =>
    (h.peek? id).symm⟩

/-! ### Steps that only use entries -/

/-- A step that changes at most the order in which entries were used. -/
def OnlyUses (m : StateM Context α) : Prop := ∀ c, wp m (fun _ c' => c.Alike c') c

theorem onlyUses_pure (x : α) : OnlyUses (pure x) := fun c => .refl c

theorem OnlyUses.bind {m : StateM Context α} {f : α → StateM Context β} (h : OnlyUses m)
    (hf : ∀ x, OnlyUses (f x)) : OnlyUses (m >>= f) :=
  fun c => (h c).trans (hf _ _)

theorem wpE_known (c : Context) (id : VertexId) :
    wpE (known id) (fun _ c' => c.Alike c') (fun _ c' => c.Alike c') c := by
  unfold known
  rw [wpE_bind, wpE_lift]
  refine wp_mono (wp_cached? c id) fun found c' h => ?_
  obtain ⟨rfl, ha⟩ := h
  cases c.registry.peek? id with
  | some r => exact ha
  | none =>
    show wpE (_ >>= _) _ _ _
    rw [wpE_bind, wpE_get]
    cases c'.staged[id]? <;> exact ha

theorem onlyUses_vertexOf (v : Value) : OnlyUses (vertexOf v).run := by
  intro c
  unfold vertexOf
  rw [wp_run, wpE_bind, wpE_get]
  cases c.bindings.vertex? v <;> exact .refl c

theorem wp_nodeOf?_bound {v : Value} (hv : c.bindings.vertex? v = some id) :
    wp (nodeOf? (.value v)) (fun found c' => found = c.nodeAt? id ∧
      c' = { c with registry := (c.registry.touch? id).2 }) c := by
  have hused : wp (cached? id) (fun found c' => found = c.registry.peek? id ∧
      c' = { c with registry := (c.registry.touch? id).2 }) c := ⟨Registry.touch?_fst .., rfl⟩
  unfold nodeOf? nodeOf lookup known vertexOf nodeAt?
  rw [wp_bind, wp_run, wpE_bind, wpE_bind, wpE_bind, wpE_get, hv]
  show wpE (_ >>= _) _ _ _
  rw [wpE_bind, wpE_lift]
  refine wp_mono hused fun found c' hc => ?_
  obtain ⟨rfl, rfl⟩ := hc
  cases c.registry.peek? id with
  | some r => exact ⟨rfl, rfl⟩
  | none =>
    show wpE (_ >>= _) _ _ _
    rw [wpE_bind, wpE_get]
    dsimp only
    cases c.staged[id]? <;> exact ⟨rfl, rfl⟩

theorem onlyUses_nodeOf? (v : Value) : OnlyUses (nodeOf? (.value v)) := by
  intro c
  unfold nodeOf? nodeOf lookup vertexOf
  rw [wp_bind, wp_run, wpE_bind, wpE_bind, wpE_bind, wpE_get]
  cases c.bindings.vertex? v with
  | none => exact .refl c
  | some id => exact wpE_known c id

end Context

/-! ### Steps for which the order of use makes no difference -/

namespace Context
variable {α β : Type} {c c' : Context} {id : VertexId}

/-- Contexts that forget nothing and differ at most in the order of use. -/
def unbounded : Course Context Context where
  Step _ q := q.1.Alike q.2 ∧ q.1.registry.capacity = none
  trans _ h := h
  stay h := h

/-- The step does the same whatever the order of use is, if nothing is forgotten. -/
def Steady (m : StateM Context α) : Prop :=
  ∀ p, unbounded.Step p p → wp₂ unbounded m m (fun x y _ => x = y) p

theorem steady_pure (x : α) : Steady (pure x) := fun _ hp => wp₂_pure hp rfl

theorem Steady.bind {m : StateM Context α} {f : α → StateM Context β} (h : Steady m)
    (hf : ∀ x, Steady (f x)) : Steady (m >>= f) := fun p hp =>
  wp₂_bind (h p hp) fun x y q hq hxy => by
    subst hxy
    exact hf x q hq

theorem Steady.bindE {m : Resolving α} {f : α → Resolving β} (h : Steady m.run)
    (hf : ∀ x, Steady (f x).run) : Steady (m >>= f).run := by
  rw [ExceptT.run_bind]
  refine h.bind fun x => ?_
  cases x with
  | ok x => exact hf x
  | error e => exact steady_pure _

theorem steady_lift {m : StateM Context α} (h : Steady m) : Steady (liftM m : Resolving α).run :=
  h.bind fun _ => steady_pure _

theorem steady_get {f : Context → StateM Context α} (hf : ∀ c, Steady (f c))
    (heq : ∀ c c', c.Alike c' → f c = f c') : Steady (get >>= f) := fun p hp => by
  have h : wp₂ unbounded (f p.1) (f p.2) (fun x y _ => x = y) p := by
    rw [← heq p.1 p.2 hp.1]
    exact hf p.1 p hp
  exact h

theorem steady_getE {f : Context → Resolving α} (hf : ∀ c, Steady (f c).run)
    (heq : ∀ c c', c.Alike c' → f c = f c') : Steady (get >>= f : Resolving α).run := fun p hp => by
  have h : wp₂ unbounded (f p.1).run (f p.2).run (fun x y _ => x = y) p := by
    rw [← heq p.1 p.2 hp.1]
    exact hf p.1 p hp
  exact h

theorem steady_cached? (id : VertexId) : Steady (cached? id) := fun p hp =>
  wp₂_of_wp (wp_cached? p.1 id) (wp_cached? p.2 id) fun _ c _ c' h h' =>
    ⟨⟨h.2.symm.trans (hp.1.trans h'.2), h.2.capacity.trans hp.2⟩, by
      rw [h.1, h'.1, hp.1.peek?]⟩

theorem steady_register (r : Registration) : Steady (register r) := by
  rintro ⟨c, c'⟩ ⟨ha, hn⟩
  have hn' : c'.registry.capacity = none := ha.capacity.trans hn
  have hfst : (c.registry.register r).1 = (c'.registry.register r).1 := by
    rw [Registry.register_fst, Registry.register_fst, ha.peek?]
  refine ⟨⟨⟨ha.language, ha.bindings, ha.staged, ha.notices, ?_, fun id => ?_⟩, ?_⟩, hfst⟩
  · show (c'.registry.register r).2.capacity = (c.registry.register r).2.capacity
    rw [Registry.capacity_register, Registry.capacity_register, ha.capacity]
  · show (c'.registry.register r).2.peek? id = (c.registry.register r).2.peek? id
    rw [Registry.peek?_register hn, Registry.peek?_register hn', hfst, ha.peek?]
  · exact (Registry.capacity_register ..).trans hn

theorem steady_modifyGet {f : Context → α × Context} (hreg : ∀ c, (f c).2.registry = c.registry)
    (heq : ∀ c c', c.Alike c' → (f c).1 = (f c').1 ∧ (f c').2.language = (f c).2.language ∧
      (f c').2.bindings = (f c).2.bindings ∧ (f c').2.staged = (f c).2.staged ∧
      (f c').2.notices = (f c).2.notices) : Steady (modifyGet f) := by
  rintro ⟨c, c'⟩ ⟨ha, hn⟩
  obtain ⟨hval, hlang, hbind, hstaged, hnotices⟩ := heq c c' ha
  refine ⟨⟨⟨hlang, hbind, hstaged, hnotices, ?_, fun id => ?_⟩, ?_⟩, hval⟩
  · exact (congrArg Registry.capacity (hreg c')).trans
      (ha.capacity.trans (congrArg Registry.capacity (hreg c)).symm)
  · show (f c').2.registry.peek? id = (f c).2.registry.peek? id
    rw [hreg, hreg, ha.peek?]
  · exact (congrArg Registry.capacity (hreg c)).trans hn

theorem steady_notify (n : Notice) : Steady (notify n) :=
  steady_modifyGet (f := fun c => ((), _)) (fun _ => rfl) fun c c' h =>
    ⟨rfl, h.language, h.bindings, h.staged, by rw [h.notices]⟩

theorem steady_bindAll (id : VertexId) (v : Value) : Steady (bindAll id v) :=
  steady_modifyGet (f := fun c => ((), _)) (fun _ => rfl) fun c c' h =>
    ⟨rfl, h.language, by rw [h.bindings], h.staged, h.notices⟩

theorem steady_buildStub (identifier : String) : Steady (buildStub identifier) :=
  steady_modifyGet (fun _ => rfl) fun c c' h =>
    ⟨by rw [h.bindings], h.language, by rw [h.bindings], h.staged, h.notices⟩

theorem steady_buildValue (a : Ast) : Steady (buildValue a) :=
  steady_modifyGet (fun _ => rfl) fun c c' h => by
    rw [h.bindings, h.language]
    exact ⟨rfl, rfl, rfl, h.staged, h.notices⟩

theorem steady_buildTree (raw : Json) : Steady (buildTree raw) := by
  unfold buildTree
  cases readTree? raw with
  | some j => exact (steady_buildValue ⟨j⟩).bind fun _ => steady_pure _
  | none =>
    exact (steady_notify _).bind fun _ => (steady_buildStub _).bind fun _ => steady_pure _

theorem steady_buildVertex (v : Vertex) : Steady (buildVertex v).run := by
  unfold buildVertex
  split
  · unfold buildCode
    cases v.property? "json" with
    | none => exact steady_pure _
    | some raw => exact Steady.bindE (steady_lift (steady_buildTree raw)) fun _ => steady_pure _
  · split
    · exact Steady.bindE (steady_lift (steady_buildStub fileLabel)) fun _ => steady_pure _
    · exact steady_pure _

theorem steady_resolve (v : Vertex) (policy : CachePolicy) : Steady (resolve v policy).run := by
  unfold resolve
  refine Steady.bindE (steady_buildVertex v) fun built => ?_
  refine Steady.bindE (steady_lift (steady_bindAll v.id built.value)) fun _ => ?_
  cases policy with
  | store => exact steady_lift (steady_register built)
  | bypass => exact steady_pure _

theorem steady_known (id : VertexId) : Steady (known id).run := by
  unfold known
  refine Steady.bindE (steady_lift (steady_cached? id)) fun found => ?_
  cases found with
  | some r => exact steady_pure _
  | none =>
    refine steady_getE (fun c => ?_) fun c c' h => by rw [h.staged]
    cases c.staged[id]? <;> exact steady_pure _

theorem steady_vertexOf (v : Value) : Steady (vertexOf v).run := by
  unfold vertexOf
  refine steady_getE (fun c => ?_) fun c c' h => by rw [h.bindings]
  cases c.bindings.vertex? v <;> exact steady_pure _

theorem steady_lookup (k : NodeKey) : Steady (lookup k).run := by
  cases k with
  | vertex v =>
    refine Steady.bindE (steady_lift (steady_cached? v.id)) fun found => ?_
    cases found with
    | some r => exact steady_pure _
    | none => exact steady_resolve v .store
  | id id => exact steady_known id
  | node n => exact steady_known n.id
  | value v => exact Steady.bindE (steady_vertexOf v) steady_known

theorem steady_valueOf (k : NodeKey) : Steady (valueOf k).run :=
  Steady.bindE (steady_lookup k) fun _ => steady_pure _

theorem steady_valueOf? (k : NodeKey) : Steady (valueOf? k) := by
  refine (steady_valueOf k).bind fun x => ?_
  cases x <;> exact steady_pure _

theorem steady_nodeOf? (k : NodeKey) : Steady (nodeOf? k) := by
  refine Steady.bind (Steady.bindE (steady_lookup k) fun _ => steady_pure _) fun x => ?_
  cases x <;> exact steady_pure _

end Context

/-! ### Asking -/

/-- A property of steps that whoever asks a predicate or a column has, if looking does. -/
structure Looks (P : ∀ α : Type, StateM Context α → Prop) : Prop where
  pure : ∀ {α : Type} (x : α), P α (pure x)
  bind : ∀ {α β : Type} {m : StateM Context α} {f : α → StateM Context β}, P α m → (∀ x, P β (f x)) →
    P β (m >>= f)
  view : ∀ {α : Type} (f : Bindings → α), P α (do return f (← get).bindings)
  node : ∀ v, P _ (Context.nodeOf? (.value v))

namespace Looks
variable {P : ∀ α : Type, StateM Context α → Prop}

theorem anyM {α : Type} {f : α → StateM Context Bool} (h : Looks P) (hf : ∀ x, P _ (f x)) (xs : List α) :
    P _ (xs.anyM f) := by
  induction xs with
  | nil => exact h.pure false
  | cons x xs ih =>
    rw [List.anyM_cons]
    refine h.bind (hf x) fun yes => ?_
    cases yes
    · exact ih
    · exact h.pure true

theorem test (h : Looks P) (p : ValuePredicate) (v : Value) : P _ (p.test v) := by
  induction p generalizing v with
  | sees accepts => exact h.view fun b => accepts (b.view v)
  | node accepts => exact h.bind (h.node v) fun _ => h.pure _
  | contains inner ih => exact h.anyM ih _
  | and left right ihl ihr =>
    refine h.bind (ihl v) fun yes => ?_
    cases yes
    · exact h.pure false
    · exact ihr v
  | or left right ihl ihr =>
    refine h.bind (ihl v) fun yes => ?_
    cases yes
    · exact ihr v
    · exact h.pure true
  | not inner ih => exact h.bind (ih v) fun _ => h.pure _

theorem contains (h : Looks P) (col : Column) (cell : Cell Ref) : P _ (col.contains cell) := by
  cases col with
  | data d => exact h.view fun b => d.contains b cell
  | any n cells => exact h.view fun b => cells.any (b.sameCell · cell)
  | predicate name accepts =>
    unfold Column.contains
    cases cell.value? with
    | none => exact h.pure false
    | some v => exact h.test accepts v

end Looks

theorem Context.looks_onlyUses : Looks @OnlyUses where
  pure := onlyUses_pure
  bind := OnlyUses.bind
  view _ c := .refl c
  node := onlyUses_nodeOf?

theorem Context.looks_steady : Looks @Steady where
  pure := steady_pure
  bind := Steady.bind
  view _ := steady_get (fun _ => steady_pure _) fun _ _ h => by rw [h.bindings]
  node _ := steady_nodeOf? _

end CodeGraph
