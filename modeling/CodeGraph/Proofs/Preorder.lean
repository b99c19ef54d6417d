import CodeGraph.Graph.Agenda
import CodeGraph.Proofs.Binding

/-!
# A walk visits in preorder

What is left to be visited by an agenda are the trees on its stack, from the last to the first, each with
all that is below it (`Agenda.pending`). A request takes the first of them and leaves the others as they
were (`Agenda.fst_next`, `Agenda.pending_next`), so after so many requests as many are gone from the front,
and nothing is lost or moved however wide and deep the trees are. `Tree.stream_visits` says what the walk
over a tree gets at each request.
-/

namespace CodeGraph

namespace Tree
variable {ι κ : Type}

theorem preorderAll_eq_flatMap (ts : List (Tree ι)) : preorderAll ts = ts.flatMap preorder := by
  induction ts with
  | nil => rfl
  | cons t ts ih => rw [preorderAll, ih, List.flatMap_cons]

theorem preorder_eq (t : Tree ι) : t.preorder = t :: preorderAll t.children := by
  cases t
  rw [preorder, children]

mutual

theorem length_preorder (t : Tree ι) : t.preorder.length = t.size := by
  obtain ⟨tag, header, cs⟩ := t
  rw [preorder, List.length_cons, length_preorderAll cs, size]

theorem length_preorderAll (ts : List (Tree ι)) : (preorderAll ts).length = sizeAll ts := by
  cases ts with
  | nil => rfl
  | cons t ts => rw [preorderAll, List.length_append, length_preorder t, length_preorderAll ts, sizeAll]

end

/-! ### The part of a walk below a tree that it visits -/

mutual

theorem preorder_prefix_drop (t : Tree ι) {k : Nat} {u : Tree ι} (h : t.preorder[k]? = some u) :
    u.preorder <+: t.preorder.drop k := by
  obtain ⟨tag, header, cs⟩ := t
  rw [preorder] at h ⊢
  cases k with
  | zero =>
    cases h
    rw [preorder]
    exact List.prefix_refl _
  | succ k => exact preorderAll_prefix_drop cs h

theorem preorderAll_prefix_drop (ts : List (Tree ι)) {k : Nat} {u : Tree ι}
    (h : (preorderAll ts)[k]? = some u) : u.preorder <+: (preorderAll ts).drop k := by
  cases ts with
  | nil => cases h
  | cons t ts =>
    rw [preorderAll] at h ⊢
    rcases Nat.lt_or_ge k t.preorder.length with hk | hk
    · -- visited below the first tree, before the others begin
      rw [List.getElem?_append_left hk] at h
      rw [List.drop_append_of_le_length (Nat.le_of_lt hk)]
      exact (preorder_prefix_drop t h).trans (List.prefix_append ..)
    · rw [List.getElem?_append_right hk] at h
      rw [List.drop_append, List.drop_eq_nil_of_le hk, List.nil_append]
      exact preorderAll_prefix_drop ts h

end

end Tree

namespace Agenda
variable {ι : Type}

/-- What is left to be visited, in the order in which it will be. -/
def pending (a : Agenda ι) : List (Tree ι) := Tree.preorderAll a.stack.toList.reverse

theorem pending_ofTree (t : Tree ι) : (ofTree t).pending = t.preorder := by
  show Tree.preorder t ++ [] = _
  rw [List.append_nil]

theorem next_of_empty {a : Agenda ι} (h : a.stack.back? = none) : a.next = (none, a) := by
  unfold next
  rw [h]

theorem pending_of_empty {a : Agenda ι} (h : a.stack.back? = none) : a.pending = [] := by
  rw [pending, Array.back?_eq_none_iff.1 h]
  rfl

/-- The last tree of the stack is visited first, then what is below it, then what was there before. -/
theorem pending_of_back {a : Agenda ι} {t : Tree ι} (h : a.stack.back? = some t) :
    a.pending = t :: Tree.preorderAll (t.children ++ a.stack.pop.toList.reverse) := by
  obtain ⟨below, hstack⟩ := Array.back?_eq_some_iff.1 h
  rw [pending, hstack, Array.pop_push, Array.toList_push, List.reverse_concat, Tree.preorderAll,
    t.preorder_eq, List.cons_append, Tree.preorderAll_append]

theorem fst_next (a : Agenda ι) : a.next.1 = a.pending.head? := by
  cases h : a.stack.back? with
  | none =>
    rw [next_of_empty h, pending_of_empty h]
    rfl
  | some t =>
    rw [pending_of_back h, next, h]
    rfl

/-- What is left after a request is the rest, in the same order. -/
theorem pending_next (a : Agenda ι) : a.next.2.pending = a.pending.tail := by
  cases h : a.stack.back? with
  | none =>
    rw [next_of_empty h, pending_of_empty h, List.tail_nil]
  | some t =>
    have hleft : a.next.2 = ⟨a.stack.pop ++ t.children.reverse⟩ := by
      rw [next, h]
    rw [pending_of_back h, hleft, List.tail_cons, pending, Array.toList_appendList, List.reverse_append,
      List.reverse_reverse]

theorem pending_after (a : Agenda ι) (k : Nat) : (a.after k).pending = a.pending.drop k := by
  induction k with
  | zero => rfl
  | succ k ih => rw [after, pending_next, ih, List.tail_drop]

end Agenda

namespace Tree

/-- The walk over a tree visits it and then all that is below its first child, its second child and so
on. There are as many visits as the tree has nodes: so many requests get one each, and whoever asks for
more gets nothing. From where a tree is visited on, the walk goes as one that starts there, and one that
starts anew at the root goes as the first did, whatever the nodes are known by in the meantime. -/
theorem stream_visits {ι κ : Type} (t : Tree ι) :
    t.stream = t :: t.children.flatMap stream ∧
    (∀ k, ((Agenda.ofTree t).after k).next.1 = t.stream[k]?) ∧
    (∀ k, ((Agenda.ofTree t).after k).next.1 = none ↔ t.size ≤ k) ∧
    (∀ k u, t.stream[k]? = some u → u.stream = (t.stream.drop k).take u.size) ∧
    ∀ f : ι → κ, (t.map f).stream = t.stream.map (map f) := by
  have hstream : (stream : Tree ι → List (Tree ι)) = preorder := funext stream_eq_preorder
  have hnext (k : Nat) : ((Agenda.ofTree t).after k).next.1 = t.preorder[k]? := by
    rw [Agenda.fst_next, Agenda.pending_after, Agenda.pending_ofTree, List.head?_drop]
  rw [hstream]
  refine ⟨?_, hnext, fun k => ?_, fun k u h => ?_, fun f => ?_⟩
  · rw [← preorderAll_eq_flatMap]
    exact t.preorder_eq
  · rw [hnext, List.getElem?_eq_none_iff, length_preorder]
  · rw [← u.length_preorder]
    exact List.prefix_iff_eq_take.1 (t.preorder_prefix_drop h)
  · rw [stream_eq_preorder]
    exact preorder_map f t

def sharedArgument : Value :=
  .node (.built 1) (.ofKind "Arg") [.node (.built 0) (.ofKind "Name") []]

def sharingCall : Value := .node (.built 2) (.ofKind "Call") [sharedArgument, sharedArgument]

theorem stream_visits_sharingCall :
    sharingCall.stream[3]? = some sharedArgument ∧
      sharedArgument.stream = (sharingCall.stream.drop 3).take 2 ∧
      ((Agenda.ofTree sharingCall).after 5).next.1 = none := by
  have hthird : sharingCall.stream[3]? = some sharedArgument := by
    rw [stream_eq_preorder]
    rfl
  have ⟨_, _, hends, hparts, _⟩ := @stream_visits Ref Identity sharingCall
  exact ⟨hthird, hparts 3 _ hthird, (hends 5).2 (Nat.le_refl 5)⟩

end Tree

end CodeGraph
