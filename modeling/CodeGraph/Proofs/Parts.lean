import CodeGraph.Proofs.OrderOfUse

/-!
# Predicates on parts

`contains p` walks over the parts of a value and asks `p` about each until one is accepted; `p` may walk
over the parts of that part in turn. What comes of it depends on the state of the context alone:
`ValuePredicate.answer` says whether a value is accepted and `ValuePredicate.uses` which entries are used
in finding out, one after another. Nothing else happens (`ValuePredicate.wp_test_eq`).

A part of a part is a part, so asking twice for a part is asking once (`contains_contains`), even for the
order of use: an entry that is used again later might as well not have been used before
(`Registry.touchAll_append_of_subset`).
-/

namespace CodeGraph

/-! ### Using several entries -/

namespace Registry
variable {r r' : Registry} {id x : VertexId} {ids xs ys : List VertexId}

/-- The registry after the entries of these vertices have been used, one after another. -/
def touchAll (r : Registry) (ids : List VertexId) : Registry :=
  ids.foldl (fun r id => (r.touch? id).2) r

theorem touchAll_cons : r.touchAll (id :: ids) = (r.touch? id).2.touchAll ids := rfl

theorem touchAll_append : r.touchAll (xs ++ ys) = (r.touchAll xs).touchAll ys := List.foldl_append

theorem peek?_touchAll (r : Registry) (ids : List VertexId) (id : VertexId) :
    (r.touchAll ids).peek? id = r.peek? id := by
  induction ids generalizing r with
  | nil => rfl
  | cons x ids ih => rw [touchAll_cons, ih, peek?_touch?]

/-- The registries differ at most in the place of one entry. -/
structure SameBut (id : VertexId) (r r' : Registry) : Prop where
  capacity : r'.capacity = r.capacity
  others : r'.others id = r.others id
  peek? : r'.peek? id = r.peek? id

namespace SameBut

theorem touch? (r : Registry) (id : VertexId) : SameBut id r (r.touch? id).2 where
  capacity := capacity_touch? r id
  peek? := peek?_touch? r id id
  others := by
    unfold Registry.touch?
    cases r.peek? id with
    | none => rfl
    | some found =>
      show ((id, found) :: r.others id).filter _ = r.others id
      rw [List.filter_cons_of_neg (by simp)]
      exact List.filter_eq_self.2 fun e he => (List.mem_filter.1 he).2

theorem step (h : SameBut id r r') (hx : x ≠ id) : SameBut id (r.touch? x).2 (r'.touch? x).2 := by
  have hpeek : r'.peek? x = r.peek? x := by
    have hlookup := congrArg (List.lookup x) h.others
    unfold Registry.others at hlookup
    rwa [lookup_filter_ne _ hx, lookup_filter_ne _ hx] at hlookup
  refine ⟨by rw [capacity_touch?, capacity_touch?, h.capacity], ?_,
    by rw [peek?_touch?, peek?_touch?, h.peek?]⟩
  unfold Registry.touch?
  rw [hpeek]
  cases r.peek? x with
  | none => exact h.others
  | some found =>
    have hfront : ∀ r : Registry, (r.moveToFront x found).others id =
        (x, found) :: (r.others id).filter fun e => e.1 ≠ x := by
      intro r
      show ((x, found) :: r.others x).filter _ = _
      rw [List.filter_cons_of_pos (by simpa using hx)]
      unfold Registry.others
      rw [List.filter_filter, List.filter_filter]
      exact congrArg _ (List.filter_congr fun _ _ => Bool.and_comm ..)
    rw [hfront, hfront, h.others]

theorem touch?_eq (h : SameBut id r r') : (r'.touch? id).2 = (r.touch? id).2 := by
  obtain ⟨n, es⟩ := r
  obtain ⟨n', es'⟩ := r'
  obtain ⟨rfl, hothers, hpeek⟩ := h
  unfold Registry.touch?
  rw [hpeek]
  cases hp : Registry.peek? ⟨n', es⟩ id with
  | some found => exact congrArg (fun es => Registry.mk n' ((id, found) :: es)) hothers
  | none =>
    have hall : ∀ {es : List (VertexId × Registration)}, es.lookup id = none →
        es.filter (fun e => e.1 ≠ id) = es := fun hl =>
      List.filter_eq_self.2 fun e he =>
        decide_eq_true (bne_iff_ne.1 (List.lookup_eq_none_iff.1 hl e he)).symm
    unfold Registry.others at hothers
    rw [hall hp, hall (hpeek.trans hp)] at hothers
    exact congrArg (Registry.mk n') hothers

theorem touchAll_eq (h : SameBut id r r') (hid : id ∈ ids) : r'.touchAll ids = r.touchAll ids := by
  induction ids generalizing r r' with
  | nil => exact absurd hid List.not_mem_nil
  | cons x ids ih =>
    rw [touchAll_cons, touchAll_cons]
    by_cases hx : x = id
    · subst hx
      rw [h.touch?_eq]
    · exact ih (h.step hx) ((List.mem_cons.1 hid).resolve_left (Ne.symm hx))

end SameBut

/-- Entries that are all used again later might as well not have been used. -/
theorem touchAll_append_of_subset (r : Registry) (h : ∀ x ∈ xs, x ∈ ys) :
    r.touchAll (xs ++ ys) = r.touchAll ys := by
  induction xs generalizing r with
  | nil => rfl
  | cons x xs ih =>
    obtain ⟨hx, hxs⟩ := List.forall_mem_cons.1 h
    rw [List.cons_append, touchAll_cons, ih _ hxs]
    exact (SameBut.touch? r x).touchAll_eq hx

end Registry

/-! ### What comes of asking -/

namespace Context

def touching (c : Context) (ids : List VertexId) : Context :=
  { c with registry := c.registry.touchAll ids }

theorem touching_append (c : Context) (xs ys : List VertexId) :
    c.touching (xs ++ ys) = (c.touching xs).touching ys := by
  unfold touching
  rw [Registry.touchAll_append]

theorem nodeAt?_touching (c : Context) (ids : List VertexId) : (c.touching ids).nodeAt? = c.nodeAt? := by
  funext id
  unfold nodeAt? touching
  dsimp only
  rw [Registry.peek?_touchAll]

end Context

/-- What is used when values are asked about in turn until one is accepted. -/
def usesUntil (accepted : Value → Bool) (uses : Value → List VertexId) : List Value → List VertexId
  | [] => []
  | v :: vs => uses v ++ if accepted v then [] else usesUntil accepted uses vs

theorem usesUntil_of_none {accepted : Value → Bool} {uses : Value → List VertexId} {vs : List Value}
    (h : vs.any accepted = false) : usesUntil accepted uses vs = vs.flatMap uses := by
  induction vs with
  | nil => rfl
  | cons v vs ih =>
    rw [List.any_cons, Bool.or_eq_false_iff] at h
    rw [usesUntil, h.1, ih h.2, List.flatMap_cons, if_neg Bool.false_ne_true]

theorem wp_anyM_touching {m : Value → StateM Context Bool} {b : Bindings}
    {nodes : VertexId → Option GraphNode} {accepted : Value → Bool} {uses : Value → List VertexId}
    (h : ∀ v c, c.bindings = b → c.nodeAt? = nodes →
      wp (m v) (fun yes c' => yes = accepted v ∧ c' = c.touching (uses v)) c) (vs : List Value)
    {c : Context} (hb : c.bindings = b) (hn : c.nodeAt? = nodes) :
    wp (vs.anyM m) (fun yes c' => yes = vs.any accepted ∧
      c' = c.touching (usesUntil accepted uses vs)) c := by
  induction vs generalizing c with
  | nil => exact ⟨rfl, rfl⟩
  | cons v vs ih =>
    rw [List.anyM_cons, wp_bind]
    refine wp_mono (h v c hb hn) fun yes c' hv => ?_
    obtain ⟨rfl, rfl⟩ := hv
    rw [usesUntil, List.any_cons, Context.touching_append]
    cases accepted v with
    | true => exact ⟨rfl, rfl⟩
    | false => exact ih (c := c.touching (uses v)) hb ((c.nodeAt?_touching _).trans hn)

namespace ValuePredicate
variable (b : Bindings) (nodes : VertexId → Option GraphNode) {p q : ValuePredicate} {c : Context}
  {u v : Value}

def answer : ValuePredicate → Value → Bool
  | sees accepts, v => accepts (b.view v)
  | node accepts, v => ((b.vertex? v).bind nodes).any accepts
  | contains inner, v => v.preorder.any inner.answer
  | and left right, v => left.answer v && right.answer v
  | or left right, v => left.answer v || right.answer v
  | not inner, v => !inner.answer v

/-- The vertices whose entries are used when a predicate is asked about a value, in turn. -/
def uses : ValuePredicate → Value → List VertexId
  | sees _, _ => []
  | node _, v => (b.vertex? v).toList
  | contains inner, v => usesUntil (inner.answer b nodes) inner.uses v.preorder
  | and left right, v => left.uses v ++ if left.answer b nodes v then right.uses v else []
  | or left right, v => left.uses v ++ if left.answer b nodes v then [] else right.uses v
  | not inner, v => inner.uses v

/-- A predicate that is asked gives its answer and uses the entries that it uses. -/
theorem wp_test_eq (p : ValuePredicate) (v : Value) (c : Context) :
    wp (p.test v) (fun yes c' => yes = p.answer c.bindings c.nodeAt? v ∧
      c' = c.touching (p.uses c.bindings c.nodeAt? v)) c := by
  induction p generalizing v c with
  | sees accepts => exact ⟨rfl, rfl⟩
  | node accepts =>
    unfold test answer uses
    rw [wp_bind]
    cases hv : c.bindings.vertex? v with
    | some id =>
      refine wp_mono (Context.wp_nodeOf?_bound hv) fun found c' h => ?_
      obtain ⟨rfl, rfl⟩ := h
      exact ⟨rfl, rfl⟩
    | none =>
      unfold Context.nodeOf? Context.nodeOf Context.lookup Context.vertexOf
      rw [wp_bind, wp_run, wpE_bind, wpE_bind, wpE_bind, wpE_get, hv]
      exact ⟨rfl, rfl⟩
  | contains inner ih =>
    unfold test answer uses
    rw [Tree.stream_eq_preorder]
    refine wp_anyM_touching (fun t c' hb hn => ?_) _ rfl rfl
    have h := ih t c'
    rwa [hb, hn] at h
  | and left right ihl ihr =>
    unfold test answer uses
    rw [wp_bind]
    refine wp_mono (ihl v c) fun yes c' h => ?_
    obtain ⟨rfl, rfl⟩ := h
    rw [Context.touching_append]
    cases left.answer c.bindings c.nodeAt? v with
    | false => exact ⟨rfl, rfl⟩
    | true =>
      have h := ihr v (c.touching (left.uses c.bindings c.nodeAt? v))
      rwa [Context.nodeAt?_touching] at h
  | or left right ihl ihr =>
    unfold test answer uses
    rw [wp_bind]
    refine wp_mono (ihl v c) fun yes c' h => ?_
    obtain ⟨rfl, rfl⟩ := h
    rw [Context.touching_append]
    cases left.answer c.bindings c.nodeAt? v with
    | true => exact ⟨rfl, rfl⟩
    | false =>
      have h := ihr v (c.touching (left.uses c.bindings c.nodeAt? v))
      rwa [Context.nodeAt?_touching] at h
  | not inner ih =>
    unfold test answer uses
    rw [wp_bind]
    refine wp_mono (ih v c) fun yes c' h => ?_
    obtain ⟨rfl, rfl⟩ := h
    exact ⟨rfl, rfl⟩

theorem test_eq_of (ha : ∀ b nodes v, q.answer b nodes v = p.answer b nodes v)
    (hu : ∀ b nodes v (r : Registry), r.touchAll (q.uses b nodes v) = r.touchAll (p.uses b nodes v)) :
    q.test = p.test := by
  have hrun : ∀ (p : ValuePredicate) (v : Value) (c : Context), (p.test v).run c =
      (p.answer c.bindings c.nodeAt? v, c.touching (p.uses c.bindings c.nodeAt? v)) :=
    fun p v c => Prod.ext (p.wp_test_eq v c).1 (p.wp_test_eq v c).2
  funext v c
  show (q.test v).run c = (p.test v).run c
  rw [hrun, hrun, ha]
  unfold Context.touching
  rw [hu]

def acceptedIn (c : Context) (p : ValuePredicate) (v : Value) : Bool := ((p.test v).run c).1

theorem acceptedIn_eq : p.acceptedIn c v = p.answer c.bindings c.nodeAt? v := (p.wp_test_eq v c).1

end ValuePredicate

/-! ### Parts of parts -/

namespace Tree

theorem mem_preorder_of_mem_children {ι : Type} {t u : Tree ι} (h : u ∈ t.children) : u ∈ t.preorder := by
  obtain ⟨tag, header, cs⟩ := t
  rw [preorder]
  refine List.mem_cons_of_mem _ ?_
  obtain ⟨front, back, rfl⟩ := List.append_of_mem (show u ∈ cs from h)
  rw [preorderAll_append, preorderAll]
  exact List.mem_append_right _ (List.mem_append_left _ u.self_mem_preorder)

theorem any_preorder_preorder {ι : Type} (f : Tree ι → Bool) (t : Tree ι) :
    (t.preorder.any fun u => u.preorder.any f) = t.preorder.any f := by
  refine Bool.eq_iff_iff.2 ⟨fun h => ?_, fun h => List.any_eq_true.2 ⟨t, t.self_mem_preorder, h⟩⟩
  obtain ⟨u, hu, h⟩ := List.any_eq_true.1 h
  obtain ⟨w, hw, h⟩ := List.any_eq_true.1 h
  exact List.any_eq_true.2 ⟨w, preorder_subset hu hw, h⟩

end Tree

namespace Registry

mutual

theorem touchAll_preorder (uses : Value → List VertexId) (v : Value) (r : Registry) :
    r.touchAll (v.preorder.flatMap fun u => u.preorder.flatMap uses) =
      r.touchAll (v.preorder.flatMap uses) := by
  cases v with
  | node tag header cs =>
    rw [Tree.preorder, List.flatMap_cons, touchAll_append, touchAll_preorderAll uses cs,
      ← touchAll_append, Tree.preorder, List.flatMap_cons, List.append_assoc, touchAll_append,
      touchAll_append_of_subset _ fun _ h => h, ← touchAll_append]

theorem touchAll_preorderAll (uses : Value → List VertexId) (vs : List Value) (r : Registry) :
    r.touchAll ((Tree.preorderAll vs).flatMap fun u => u.preorder.flatMap uses) =
      r.touchAll ((Tree.preorderAll vs).flatMap uses) := by
  cases vs with
  | nil => rfl
  | cons v vs =>
    rw [Tree.preorderAll, List.flatMap_append, List.flatMap_append, touchAll_append, touchAll_append,
      touchAll_preorder uses v, touchAll_preorderAll uses vs]

end

end Registry

namespace ValuePredicate
variable {p q : ValuePredicate} {c : Context} {u v : Value}

/-- Asking for a part with a part that is accepted is asking for a part that is accepted: the answers
are the same and so is what they leave. -/
theorem test_contains_contains (p : ValuePredicate) :
    (contains (contains p)).test = (contains p).test := by
  refine test_eq_of (fun b nodes v => Tree.any_preorder_preorder _ v) fun b nodes v r => ?_
  cases hv : v.preorder.any (p.answer b nodes) with
  | true =>
    -- the walk over the whole value finds a part, so no other walk is made
    have hroot : v.preorder = v :: Tree.preorderAll v.children := by
      obtain ⟨tag, header, cs⟩ := v
      rw [Tree.preorder, Tree.children]
    show r.touchAll (usesUntil ((contains p).answer b nodes) ((contains p).uses b nodes) v.preorder) = _
    rw [hroot, usesUntil, show (contains p).answer b nodes v = true from hv, if_pos rfl, List.append_nil]
  | false =>
    have hnone : ∀ u ∈ v.preorder, u.preorder.any (p.answer b nodes) = false := fun u hu =>
      List.any_eq_false.2 fun w hw => List.any_eq_false.1 hv w (Tree.preorder_subset hu hw)
    have huses : v.preorder.flatMap ((contains p).uses b nodes) =
        v.preorder.flatMap fun u => u.preorder.flatMap (p.uses b nodes) :=
      List.flatMap_congr fun u hu => usesUntil_of_none (hnone u hu)
    have hnone' : v.preorder.any ((contains p).answer b nodes) = false :=
      (Tree.any_preorder_preorder _ v).trans hv
    show r.touchAll (usesUntil _ _ v.preorder) = r.touchAll (usesUntil _ _ v.preorder)
    rw [usesUntil_of_none hv, usesUntil_of_none hnone', huses]
    exact Registry.touchAll_preorder _ v r

theorem acceptedIn_contains_or : (contains (p.or q)).acceptedIn c v =
    ((contains p).acceptedIn c v || (contains q).acceptedIn c v) := by
  rw [acceptedIn_eq, acceptedIn_eq, acceptedIn_eq, Bool.eq_iff_iff]
  simp only [answer, List.any_eq_true, Bool.or_eq_true, and_or_left, exists_or]

theorem acceptedIn_contains_self (h : p.acceptedIn c v = true) : (contains p).acceptedIn c v = true := by
  rw [acceptedIn_eq] at h ⊢
  exact List.any_eq_true.2 ⟨v, v.self_mem_preorder, h⟩

theorem acceptedIn_contains_of_part (hu : u ∈ v.preorder) (h : (contains p).acceptedIn c u = true) :
    (contains p).acceptedIn c v = true := by
  rw [acceptedIn_eq] at h ⊢
  obtain ⟨w, hw, h⟩ := List.any_eq_true.1 h
  exact List.any_eq_true.2 ⟨w, Tree.preorder_subset hu hw, h⟩

end ValuePredicate

end CodeGraph
