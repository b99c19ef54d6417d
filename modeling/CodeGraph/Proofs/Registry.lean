import CodeGraph.Graph.Registry

/-!
# What a registry holds

`peek?` is the view under which the operations of a registry are described. Using an entry changes
nothing in that view; registering a vertex changes at most what other vertices lose by it, and a
registry with room holds the vertex afterwards.
-/

namespace CodeGraph

theorem lookup_filter_ne {α β : Type} [DecidableEq α] {k k' : α} (es : List (α × β)) (h : k' ≠ k) :
    (es.filter fun e => e.1 ≠ k).lookup k' = es.lookup k' := by
  induction es with
  | nil => rfl
  | cons e es ih =>
    by_cases he : e.1 = k
    · have hne : (k' == e.1) = false := by rw [he]; exact beq_false_of_ne h
      rw [List.filter_cons_of_neg (by simpa using he), ih, List.lookup_cons, hne]
    · rw [List.filter_cons_of_pos (by simpa using he), List.lookup_cons, List.lookup_cons, ih]

theorem lookup_of_mem {α β : Type} [DecidableEq α] {es : List (α × β)} (hn : (es.map (·.1)).Nodup)
    {e : α × β} (he : e ∈ es) : es.lookup e.1 = some e.2 := by
  obtain ⟨front, back, rfl⟩ := List.append_of_mem he
  refine List.lookup_eq_some_iff.2 ⟨front, back, rfl, fun x hx => bne_iff_ne.2 fun heq => ?_⟩
  rw [List.map_append, List.nodup_append] at hn
  exact hn.2.2 x.1 (List.mem_map_of_mem hx) e.1 (List.mem_cons_self ..) heq.symm

namespace Registry
variable {r : Registry} {id id' : VertexId} {new found : Registration}

theorem peek?_moveToFront :
    (r.moveToFront id found).peek? id' = if id' = id then some found else r.peek? id' := by
  show List.lookup id' ((id, found) :: r.others id) = _
  rw [List.lookup_cons]
  split
  · next h => rw [if_pos (eq_of_beq h)]
  · next h =>
    have hne : id' ≠ id := ne_of_beq_false h
    rw [if_neg hne]
    exact lookup_filter_ne r.entries hne

theorem touch?_fst (r : Registry) (id : VertexId) : (r.touch? id).1 = r.peek? id := by
  unfold touch?
  cases r.peek? id <;> rfl

theorem peek?_touch? (r : Registry) (id id' : VertexId) :
    (r.touch? id).2.peek? id' = r.peek? id' := by
  unfold touch?
  cases h : r.peek? id with
  | none => rfl
  | some found =>
    show (r.moveToFront id found).peek? id' = _
    rw [peek?_moveToFront]
    split
    · next he => rw [he, h]
    · rfl

theorem capacity_touch? (r : Registry) (id : VertexId) : (r.touch? id).2.capacity = r.capacity := by
  unfold touch?
  cases r.peek? id <;> rfl

theorem lookup_take {es : List (VertexId × Registration)} {n : Nat}
    (h : (es.take n).lookup id = some found) : es.lookup id = some found := by
  induction es generalizing n with
  | nil => simp at h
  | cons e es ih =>
    cases n with
    | zero => simp at h
    | succ n =>
      rw [List.take_succ_cons, List.lookup_cons] at h
      rw [List.lookup_cons]
      split at h
      · exact h
      · exact ih h

theorem lookup_cut {capacity : Option Nat} {es : List (VertexId × Registration)}
    (h : (cut capacity es).lookup id = some found) : es.lookup id = some found := by
  cases capacity with
  | none => exact h
  | some n => exact lookup_take h

theorem register_of_peek? (h : r.peek? new.id = some found) :
    r.register new = (found, (r.touch? new.id).2) := by
  unfold register touch?
  rw [h]

theorem register_of_none (h : r.peek? new.id = none) :
    r.register new = (new, { r with entries := cut r.capacity ((new.id, new) :: r.entries) }) := by
  unfold register touch?
  rw [h]

theorem capacity_register (r : Registry) (new : Registration) :
    (r.register new).2.capacity = r.capacity := by
  cases h : r.peek? new.id with
  | none => rw [register_of_none h]
  | some found => rw [register_of_peek? h]; exact capacity_touch? r new.id

theorem peek?_register_self (hroom : r.capacity ≠ some 0) :
    (r.register new).2.peek? new.id = some (r.register new).1 := by
  cases h : r.peek? new.id with
  | some found => rw [register_of_peek? h, peek?_touch?, h]
  | none =>
    rw [register_of_none h]
    show (cut r.capacity ((new.id, new) :: r.entries)).lookup new.id = some new
    unfold cut
    split
    · next n hn =>
      cases n with
      | zero => exact absurd hn hroom
      | succ n => rw [List.take_succ_cons, List.lookup_cons, beq_self_eq_true]
    · rw [List.lookup_cons, beq_self_eq_true]

theorem contains_register (hn : r.capacity = none) (h : r.contains id = true) :
    (r.register new).2.contains id = true := by
  unfold contains at h ⊢
  cases hp : r.peek? new.id with
  | some found =>
    rw [register_of_peek? hp, peek?_touch?]
    exact h
  | none =>
    rw [register_of_none hp, hn]
    show (List.lookup id ((new.id, new) :: r.entries)).isSome = true
    rw [List.lookup_cons]
    split
    · rfl
    · exact h

theorem of_peek?_register (h : (r.register new).2.peek? id = some found) :
    (found = (r.register new).1 ∧ id = new.id) ∨ r.peek? id = some found := by
  cases hp : r.peek? new.id with
  | some old =>
    rw [register_of_peek? hp, peek?_touch?] at h
    exact Or.inr h
  | none =>
    rw [register_of_none hp] at h ⊢
    have hl := lookup_cut h
    rw [List.lookup_cons] at hl
    split at hl
    · next he => exact Or.inl ⟨(Option.some.inj hl).symm, eq_of_beq he⟩
    · exact Or.inr hl

end Registry

end CodeGraph
