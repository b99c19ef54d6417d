import CodeGraph.Proofs.Faithful
import CodeGraph.Proofs.Resolving

/-!
# Pairs in the order of their last use

A registry is a list of pairs, the last used one first. `Recency` has what may become of such a list:
a pair that is found moves to the front (`Hit`), a pair of another vertex is put in front, and the last
one goes if there is no room (`Enters`). `Registry.Lists` says that a registry is such a list, each pair
under the vertex of its own node.

`Access` is a call on a context that has to do with the registry, `Access.Answered` what it answers and
what it makes of the list. After any calls the context is such that any further call is answered so, and
the vertices listed are those used last, as many as there is room for
(`Context.accesses_keep_last_used`).
-/

namespace CodeGraph

namespace Recency

/-- The pair of the vertex is in the list and moves to the front. -/
def Hit (id : VertexId) (r : Registration) (rs rs' : List Registration) : Prop :=
  r.id = id ∧ ∃ before after, rs = before ++ r :: after ∧ rs' = r :: (before ++ after)

/-- No pair of the vertex is in the list. -/
def Missing (id : VertexId) (rs : List Registration) : Prop := ∀ r ∈ rs, r.id ≠ id

/-- A pair of a new vertex is put in front. If there is no room the last pair goes, and only that. -/
def Enters (bound : Option Nat) (r : Registration) (rs rs' : List Registration) : Prop :=
  Missing r.id rs ∧
    ((bound ≠ some rs.length ∧ rs' = r :: rs) ∨
      (bound = some rs.length ∧ ∃ kept last, rs = kept ++ [last] ∧ rs' = r :: kept))

/-- A pair is registered: the pair that the vertex has already stays and is used, or the new one is
entered. -/
def Registers (bound : Option Nat) (new kept : Registration) (rs rs' : List Registration) : Prop :=
  Hit new.id kept rs rs' ∨ (kept = new ∧ Enters bound new rs rs')

def firsts (bound : Option Nat) (ids : List VertexId) : List VertexId :=
  match bound with
  | some n => ids.take n
  | none => ids

theorem firsts_nil (bound : Option Nat) : firsts bound [] = [] := by
  cases bound with
  | none => rfl
  | some n => exact List.take_nil

/-- The vertices of a list of uses, the latest first, each where it was used last. -/
def lastUses (uses : List VertexId) : List VertexId := uses.eraseDups

variable {bound : Option Nat} {id : VertexId} {r : Registration} {rs rs' : List Registration}
  {uses : List VertexId}

theorem missing_or_exists (id : VertexId) (rs : List Registration) :
    Missing id rs ∨ ∃ r ∈ rs, r.id = id := by
  by_cases h : ∃ r ∈ rs, r.id = id
  · exact Or.inr h
  · exact Or.inl fun r hr hid => h ⟨r, hr, hid⟩

theorem Missing.not_mem_map (h : Missing id rs) : id ∉ rs.map (·.id) := by
  intro hm
  obtain ⟨x, hx, hid⟩ := List.mem_map.1 hm
  exact h x hx hid

theorem eraseDups_filter (p : VertexId → Bool) (ids : List VertexId) :
    (ids.filter p).eraseDups = ids.eraseDups.filter p := by
  -- by the length, because what is left after the first vertex is a filtered list
  induction hn : ids.length using Nat.strongRecOn generalizing ids with
  | ind n ih =>
    cases ids with
    | nil => rfl
    | cons x ids =>
      have hlt : (ids.filter fun y => !y == x).length < n := by
        rw [← hn, List.length_cons]
        exact Nat.lt_succ_of_le (List.length_filter_le ..)
      have hrest := ih _ hlt (ids.filter fun y => !y == x) rfl
      rw [List.eraseDups_cons]
      by_cases hx : p x = true
      · rw [List.filter_cons_of_pos hx, List.filter_cons_of_pos hx, List.eraseDups_cons, ← hrest,
          List.filter_filter, List.filter_filter]
        simp only [Bool.and_comm]
      · -- a vertex that is filtered out anyway may be taken out first
        have hsame : (ids.filter fun y => !y == x).filter p = ids.filter p := by
          rw [List.filter_filter]
          refine List.filter_congr fun y _ => ?_
          by_cases hy : y = x
          · rw [hy, Bool.eq_false_iff.2 hx, Bool.false_and]
          · rw [beq_false_of_ne hy, Bool.not_false, Bool.and_true]
        rw [List.filter_cons_of_neg hx, List.filter_cons_of_neg hx, ← hrest, hsame]

/-- One more use puts the vertex in front of the others. -/
theorem lastUses_cons (id : VertexId) (uses : List VertexId) :
    lastUses (id :: uses) = id :: (lastUses uses).filter (· ≠ id) := by
  unfold lastUses
  rw [List.eraseDups_cons, eraseDups_filter]
  congr 1
  refine List.filter_congr fun x _ => ?_
  by_cases hx : x = id <;> simp [hx]

theorem nodup_lastUses (uses : List VertexId) : (lastUses uses).Nodup := by
  induction uses with
  | nil => exact .nil
  | cons id uses ih =>
    rw [lastUses_cons, List.nodup_cons]
    exact ⟨fun h => by simpa using (List.mem_filter.1 h).2, ih.filter _⟩

theorem take_filter_of_mem {ids : List VertexId} (hn : ids.Nodup) {n : Nat} (h : id ∈ ids.take (n + 1)) :
    (ids.filter (· ≠ id)).take n = (ids.take (n + 1)).filter (· ≠ id) := by
  induction ids generalizing n with
  | nil => cases h
  | cons x ids ih =>
    obtain ⟨hx, hids⟩ := List.nodup_cons.1 hn
    rw [List.take_succ_cons] at h ⊢
    by_cases hid : x = id
    · have hall : ∀ y ∈ ids, decide (y ≠ id) = true := fun y hy =>
        decide_eq_true fun he => hx (by rw [hid, ← he]; exact hy)
      rw [List.filter_cons_of_neg (by simpa using hid), List.filter_cons_of_neg (by simpa using hid),
        List.filter_eq_self.2 hall, List.filter_eq_self.2 fun y hy => hall y (List.mem_of_mem_take hy)]
    · have hrest : id ∈ ids.take n := (List.mem_cons.1 h).resolve_left fun he => hid he.symm
      cases n with
      | zero => cases hrest
      | succ n =>
        rw [List.filter_cons_of_pos (by simpa using hid), List.filter_cons_of_pos (by simpa using hid),
          List.take_succ_cons, ih hids hrest]

theorem take_filter_of_not_mem {ids : List VertexId} {m n : Nat} (hm : m ≤ n) (h : id ∉ ids.take n) :
    (ids.filter (· ≠ id)).take m = ids.take m := by
  induction ids generalizing m n with
  | nil => rfl
  | cons x ids ih =>
    cases m with
    | zero => rfl
    | succ m =>
      obtain ⟨n, rfl⟩ := Nat.exists_eq_add_of_le' (Nat.lt_of_lt_of_le (Nat.succ_pos m) hm)
      rw [List.take_succ_cons, List.mem_cons, not_or] at h
      rw [List.filter_cons_of_pos (by simpa using fun he : x = id => h.1 he.symm), List.take_succ_cons,
        List.take_succ_cons, ih (Nat.le_of_succ_le_succ hm) h.2]

theorem Hit.firsts_eq (h : Hit id r rs rs') (hn : (rs.map (·.id)).Nodup)
    (hrs : rs.map (·.id) = firsts bound (lastUses uses)) :
    rs'.map (·.id) = firsts bound (lastUses (id :: uses)) := by
  obtain ⟨rfl, before, after, rfl, rfl⟩ := h
  have hmem : r.id ∈ firsts bound (lastUses uses) := by
    rw [← hrs]
    exact List.mem_map_of_mem (List.mem_append_right _ (List.mem_cons_self ..))
  have hfront : (r :: (before ++ after)).map (·.id) =
      r.id :: ((before ++ r :: after).map (·.id)).filter (· ≠ r.id) := by
    have hne : ∀ x ∈ before ++ after, decide (x.id ≠ r.id) = true := by
      intro x hx
      have hperm := hn.perm (List.perm_middle.map _)
      rw [List.map_cons, List.nodup_cons] at hperm
      exact decide_eq_true fun he => hperm.1 (he ▸ List.mem_map_of_mem hx)
    rw [List.map_cons, List.filter_map, List.filter_append, List.filter_cons_of_neg (by simp),
      ← List.filter_append]
    exact congrArg (fun l => r.id :: l.map (·.id)) (List.filter_eq_self.2 hne).symm
  rw [hfront, hrs, lastUses_cons]
  cases bound with
  | none => rfl
  | some n =>
    cases n with
    | zero => cases hmem
    | succ n =>
      show _ = List.take (n + 1) (r.id :: _)
      rw [List.take_succ_cons, take_filter_of_mem (nodup_lastUses uses) hmem]
      rfl

theorem map_id_of_full {ids : List VertexId} {kept : List Registration} {last : Registration} {n : Nat}
    (hfull : n + 1 = (kept ++ [last]).length)
    (hrs : (kept ++ [last]).map (·.id) = firsts (some (n + 1)) ids) : kept.map (·.id) = ids.take n := by
  have hcount : (kept.map (·.id)).length = n := by
    rw [List.length_append, List.length_singleton] at hfull
    rw [List.length_map]
    omega
  have htake := congrArg (List.take n) hrs
  rw [List.map_append, ← hcount, List.take_left, hcount] at htake
  rw [htake]
  show (ids.take (n + 1)).take n = _
  rw [List.take_take, Nat.min_eq_left (Nat.le_succ n)]

theorem Enters.firsts_eq (h : Enters bound r rs rs') (hroom : bound ≠ some 0)
    (hrs : rs.map (·.id) = firsts bound (lastUses uses)) :
    rs'.map (·.id) = firsts bound (lastUses (r.id :: uses)) := by
  obtain ⟨hmiss, hcase⟩ := h
  have hnot : r.id ∉ firsts bound (lastUses uses) := hrs ▸ hmiss.not_mem_map
  rw [lastUses_cons]
  cases bound with
  | none =>
    obtain ⟨-, rfl⟩ := hcase.resolve_right fun hf => nomatch hf.1
    have hne : ∀ x ∈ lastUses uses, decide (x ≠ r.id) = true := fun x hx =>
      decide_eq_true fun he : x = r.id => hnot (he ▸ hx)
    rw [List.map_cons, hrs]
    exact congrArg _ (List.filter_eq_self.2 hne).symm
  | some n =>
    cases n with
    | zero => exact absurd rfl hroom
    | succ n =>
      show _ = List.take (n + 1) (r.id :: _)
      rw [List.take_succ_cons, take_filter_of_not_mem (Nat.le_succ n) hnot]
      rcases hcase with ⟨hfree, rfl⟩ | ⟨hfull, kept, last, rfl, rfl⟩
      · -- there are so few vertices that all of them are first ones
        have hshort : (lastUses uses).length ≤ n := by
          have hlen := congrArg List.length hrs
          change _ = (List.take (n + 1) (lastUses uses)).length at hlen
          rw [List.length_map, List.length_take] at hlen
          have hne : rs.length ≠ n + 1 := fun he => hfree (by rw [he])
          omega
        rw [List.map_cons, hrs]
        show r.id :: List.take (n + 1) _ = _
        rw [List.take_of_length_le hshort, List.take_of_length_le (Nat.le_succ_of_le hshort)]
      · rw [List.map_cons, map_id_of_full (Option.some.inj hfull) hrs]

end Recency

namespace Registry
open Recency
variable {g : Registry} {id : VertexId} {r new : Registration} {rs : List Registration}

/-- The registry holds these pairs, each under the vertex of its node. -/
structure Lists (g : Registry) (rs : List Registration) : Prop where
  entries : g.entries = rs.map fun r => (r.id, r)
  nodup : (rs.map (·.id)).Nodup
  within : ∀ n ∈ g.capacity, rs.length ≤ n
  room : g.capacity ≠ some 0

namespace Lists

theorem peek?_of_missing (h : g.Lists rs) (hm : Missing id rs) : g.peek? id = none := by
  unfold peek?
  rw [h.entries, List.lookup_eq_none_iff]
  intro e he
  obtain ⟨r, hr, rfl⟩ := List.mem_map.1 he
  exact bne_iff_ne.2 fun heq => hm r hr heq.symm

theorem peek?_of_mem (h : g.Lists rs) (hr : r ∈ rs) : g.peek? r.id = some r := by
  obtain ⟨before, after, rfl⟩ := List.append_of_mem hr
  have hn := h.nodup
  rw [List.map_append, List.map_cons, List.nodup_append] at hn
  have hnone : (before.map fun r => (r.id, r)).lookup r.id = none := by
    rw [List.lookup_eq_none_iff]
    intro e he
    obtain ⟨x, hx, rfl⟩ := List.mem_map.1 he
    exact bne_iff_ne.2 (hn.2.2 x.id (List.mem_map_of_mem hx) r.id (List.mem_cons_self ..)).symm
  unfold peek?
  rw [h.entries, List.map_append, List.lookup_append, hnone, List.map_cons, List.lookup_cons,
    beq_self_eq_true]
  rfl

theorem touch?_of_missing (h : g.Lists rs) (hm : Missing id rs) : g.touch? id = (none, g) := by
  unfold touch?
  rw [h.peek?_of_missing hm]

theorem touch?_of_mem (h : g.Lists rs) (hr : r ∈ rs) :
    ∃ rs', Hit r.id r rs rs' ∧ (g.touch? r.id).1 = some r ∧ (g.touch? r.id).2.Lists rs' := by
  have hpeek := h.peek?_of_mem hr
  obtain ⟨before, after, rfl⟩ := List.append_of_mem hr
  have hn := h.nodup.perm (List.perm_middle.map _)
  rw [List.map_cons, List.nodup_cons] at hn
  have hothers : g.others r.id = (before ++ after).map fun r => (r.id, r) := by
    have hne : ∀ x ∈ before ++ after, decide (x.id ≠ r.id) = true := fun x hx =>
      decide_eq_true fun he => hn.1 (he ▸ List.mem_map_of_mem hx)
    unfold others
    rw [h.entries, List.filter_map, List.filter_append, List.filter_cons_of_neg (by simp),
      ← List.filter_append]
    exact congrArg _ (List.filter_eq_self.2 hne)
  have hmove : g.touch? r.id = (some r, g.moveToFront r.id r) := by
    unfold touch?
    rw [hpeek]
  rw [hmove]
  refine ⟨_, ⟨rfl, before, after, rfl, rfl⟩, rfl, ?_, ?_, fun n hn => ?_, h.room⟩
  · show (r.id, r) :: g.others r.id = _
    rw [hothers, List.map_cons]
  · rw [List.map_cons]
    exact List.nodup_cons.2 hn
  · have hlen := h.within n hn
    rw [List.length_append, List.length_cons] at hlen
    rw [List.length_cons, List.length_append]
    omega

theorem cut_of_full (h : g.Lists rs) (hnew : new.id ∉ rs.map (·.id)) (hfull : g.capacity = some rs.length) :
    rs ≠ [] ∧ ({ g with entries := cut g.capacity ((new.id, new) :: g.entries) } : Registry).Lists
      (new :: rs.dropLast) := by
  have hne : rs ≠ [] := by
    rintro rfl
    exact h.room hfull
  refine ⟨hne, ?_, ?_, fun n hn => ?_, h.room⟩
  · show cut g.capacity _ = _
    rw [hfull, h.entries, List.map_cons, List.map_dropLast, List.dropLast_eq_take, List.length_map]
    show List.take rs.length _ = _
    obtain ⟨n, hn⟩ := Nat.exists_eq_succ_of_ne_zero (mt List.length_eq_zero_iff.1 hne)
    rw [hn, List.take_succ_cons]
    rfl
  · rw [List.map_cons, List.map_dropLast]
    exact List.nodup_cons.2 ⟨fun hx => hnew ((List.dropLast_sublist _).subset hx),
      h.nodup.sublist (List.dropLast_sublist _)⟩
  · have hlen := h.within n hn
    have hpos := List.length_pos_iff.2 hne
    rw [List.length_cons, List.length_dropLast]
    omega

theorem cut_of_free (h : g.Lists rs) (hnew : new.id ∉ rs.map (·.id)) (hfree : g.capacity ≠ some rs.length) :
    ({ g with entries := cut g.capacity ((new.id, new) :: g.entries) } : Registry).Lists (new :: rs) := by
  have hwithin : ∀ n ∈ g.capacity, (new :: rs).length ≤ n := by
    intro n hn
    have hlen := h.within n hn
    have hne : rs.length ≠ n := fun he => hfree (by rw [he]; exact hn)
    rw [List.length_cons]
    omega
  refine ⟨?_, List.nodup_cons.2 ⟨hnew, h.nodup⟩, hwithin, h.room⟩
  show cut g.capacity _ = _
  rw [h.entries, ← List.map_cons (f := fun r : Registration => (r.id, r))]
  unfold cut
  split
  · next n hn =>
    refine List.take_of_length_le ?_
    rw [List.length_map]
    exact hwithin n hn
  · rfl

theorem cut_of_missing (h : g.Lists rs) (hm : Missing new.id rs) :
    ∃ rs', Enters g.capacity new rs rs' ∧
      ({ g with entries := cut g.capacity ((new.id, new) :: g.entries) } : Registry).Lists rs' := by
  by_cases hfull : g.capacity = some rs.length
  · obtain ⟨hne, hl⟩ := cut_of_full h hm.not_mem_map hfull
    exact ⟨_, ⟨hm, Or.inr ⟨hfull, _, _, (List.dropLast_concat_getLast hne).symm, rfl⟩⟩, hl⟩
  · exact ⟨_, ⟨hm, Or.inl ⟨hfull, rfl⟩⟩, cut_of_free h hm.not_mem_map hfull⟩

theorem register (h : g.Lists rs) (new : Registration) :
    ∃ rs', Registers g.capacity new (g.register new).1 rs rs' ∧ (g.register new).2.Lists rs' := by
  rcases missing_or_exists new.id rs with hm | ⟨r, hr, hid⟩
  · obtain ⟨rs', henters, hl⟩ := h.cut_of_missing hm
    rw [register_of_none (h.peek?_of_missing hm)]
    exact ⟨rs', Or.inr ⟨rfl, henters⟩, hl⟩
  · have hpeek := h.peek?_of_mem hr
    obtain ⟨rs', hhit, -, hl⟩ := h.touch?_of_mem hr
    rw [hid] at hpeek hhit hl
    rw [register_of_peek? hpeek]
    exact ⟨rs', Or.inl hhit, hl⟩

theorem clear (h : g.Lists rs) : g.clear.Lists [] :=
  ⟨rfl, .nil, fun _ _ => Nat.zero_le _, h.room⟩

end Lists

theorem lists_ofCapacity (capacity : Option Nat) : (ofCapacity capacity).Lists [] := by
  refine ⟨rfl, .nil, fun _ _ => Nat.zero_le _, ?_⟩
  show capacity.filter (· ≠ 0) ≠ some 0
  simp [Option.filter_eq_some_iff]

end Registry

/-! ### Calls -/

/-- A call on a context that has to do with its registry. -/
inductive Access where
  | lookup (key : NodeKey)
  | register (new : Registration)
  | resolve (v : Vertex) (policy : CachePolicy)
  | contains (id : VertexId)
  | stage (r : Registration)
  | unstage (id : VertexId)
  | clear

inductive Answer where
  | pair (answer : Except Error Registration)
  | yes (b : Bool)
  | done

namespace Access
open Recency

def run : Access → StateM Context Answer
  | lookup key => do return .pair (← (Context.lookup key).run)
  | register new => do return .pair (.ok (← Context.register new))
  | resolve v policy => do return .pair (← (Context.resolve v policy).run)
  | contains id => do return .yes ((← get).registry.contains id)
  | stage r => do
    Context.stage r
    return .done
  | unstage id => do
    Context.unstage id
    return .done
  | clear => do
    Context.clear
    return .done

/-- A vertex is looked for by its name: its pair is used if there is one, and if not, one that is
staged is given. -/
def KnownBy (c : Context) (id : VertexId) (rs : List Registration) (answer : Except Error Registration)
    (rs' : List Registration) : Prop :=
  (∃ r, Hit id r rs rs' ∧ answer = .ok r) ∨
    (Missing id rs ∧ rs' = rs ∧
      answer = (c.staged[id]?).elim (.error (.notFound "node" id.text)) .ok)

/-- A vertex is resolved and its pair registered. A vertex that cannot be resolved changes nothing. -/
def StoredBy (c : Context) (v : Vertex) (rs : List Registration) (answer : Except Error Registration)
    (rs' : List Registration) : Prop :=
  (v.resolves = true ∧ ∃ built kept, built.id = v.id ∧
      ((Context.resolve v .bypass).run.run c).1 = .ok built ∧
      Registers c.registry.capacity built kept rs rs' ∧ answer = .ok kept) ∨
    (v.resolves = false ∧ ∃ e, ((Context.resolve v .bypass).run.run c).1 = .error e ∧
      rs' = rs ∧ answer = .error e)

/-- What is asked for is looked for by its vertex. A vertex without a pair is resolved. -/
def FoundBy (c : Context) (rs : List Registration) (answer : Except Error Registration)
    (rs' : List Registration) : NodeKey → Prop
  | .vertex v => (∃ r, Hit v.id r rs rs' ∧ answer = .ok r) ∨
      (Missing v.id rs ∧ StoredBy c v rs answer rs')
  | .id id => KnownBy c id rs answer rs'
  | .node n => KnownBy c n.id rs answer rs'
  | .value v => (∃ id, c.bindings.vertex? v = some id ∧ KnownBy c id rs answer rs') ∨
      (c.bindings.vertex? v = none ∧ rs' = rs ∧ answer = .error (.unboundValue v.identifier))

/-- What a call on a context with these pairs answers, and the pairs that it leaves. -/
def Answered (c : Context) (rs : List Registration) (answer : Answer) (rs' : List Registration) :
    Access → Prop
  | lookup key => ∃ found, answer = .pair found ∧ FoundBy c rs found rs' key
  | register new => ∃ kept, answer = .pair (.ok kept) ∧
      Registers c.registry.capacity new kept rs rs'
  | resolve v .store => ∃ found, answer = .pair found ∧ StoredBy c v rs found rs'
  | resolve v .bypass => rs' = rs ∧ answer = .pair ((Context.resolve v .bypass).run.run c).1
  | contains id => rs' = rs ∧ answer = .yes (decide (∃ r ∈ rs, r.id = id))
  | stage _ => rs' = rs ∧ answer = .done
  | unstage _ => rs' = rs ∧ answer = .done
  | clear => rs' = [] ∧ answer = .done

def uses (c : Context) : Access → List VertexId
  | lookup (.vertex v) => if c.registry.contains v.id || v.resolves then [v.id] else []
  | lookup key => (key.vertex? c.bindings).toList.filter c.registry.contains
  | register new => [new.id]
  | resolve v .store => if v.resolves then [v.id] else []
  | _ => []

/-- The uses up to a call and those of the call, the latest first. Clearing starts over. -/
def record (c : Context) (used : List VertexId) : Access → List VertexId
  | clear => []
  | call => call.uses c ++ used

/-- The context after some calls, and the uses up to then. -/
def afterAll (calls : List Access) (c : Context) : Context × List VertexId :=
  calls.foldl (fun s call => ((call.run.run s.1).2, call.record s.1 s.2)) (c, [])

variable {c c' : Context} {id : VertexId} {rs rs' : List Registration} {used : List VertexId}

/-- `c'` lists pairs as `P` says, and has as much room as `c`. -/
def Leaves (c c' : Context) (P : List Registration → Prop) : Prop :=
  c'.registry.capacity = c.registry.capacity ∧ ∃ rs', c'.registry.Lists rs' ∧ P rs'

theorem Leaves.imp {P Q : List Registration → Prop} (h : Leaves c c' P) (hPQ : ∀ rs, P rs → Q rs) :
    Leaves c c' Q :=
  ⟨h.1, h.2.imp fun rs' hrs' => ⟨hrs'.1, hPQ rs' hrs'.2⟩⟩

theorem wp_cached? (h : c.registry.Lists rs) (id : VertexId) :
    wp (Context.cached? id) (fun found c' =>
      (Missing id rs ∧ found = none ∧ c' = c) ∨
        ∃ r, found = some r ∧ Leaves c c' (Hit id r rs)) c := by
  unfold Context.cached?
  show _ ∨ _
  rcases missing_or_exists id rs with hm | ⟨r, hr, rfl⟩
  · refine Or.inl ⟨hm, ?_, ?_⟩
    · exact congrArg Prod.fst (h.touch?_of_missing hm)
    · show { c with registry := (c.registry.touch? id).2 } = c
      rw [h.touch?_of_missing hm]
  · obtain ⟨rs', hhit, hfound, hl⟩ := h.touch?_of_mem hr
    exact Or.inr ⟨r, hfound, Registry.capacity_touch? .., rs', hl, hhit⟩

theorem wp_known (h : c.registry.Lists rs) (id : VertexId) :
    wp (Context.known id).run (fun found c' => Leaves c c' (KnownBy c id rs found)) c := by
  unfold Context.known
  rw [wp_run, wpE_bind, wpE_lift]
  refine wp_mono (wp_cached? h id) fun found c' hc => ?_
  rcases hc with ⟨hm, rfl, rfl⟩ | ⟨r, rfl, hcap, rs', hl, hhit⟩
  · have hkept (answer) (ha : answer = (c'.staged[id]?).elim (.error (.notFound "node" id.text)) .ok) :
        Leaves c' c' (KnownBy c' id rs answer) := ⟨rfl, rs, h, Or.inr ⟨hm, rfl, ha⟩⟩
    show wpE (_ >>= _) _ _ _
    rw [wpE_bind, wpE_get]
    cases hs : c'.staged[id]? with
    | some r => exact hkept _ (by rw [hs]; rfl)
    | none => exact hkept _ (by rw [hs]; rfl)
  · exact ⟨hcap, rs', hl, Or.inl ⟨r, hhit, rfl⟩⟩

theorem wp_register (h : c.registry.Lists rs) (new : Registration) :
    wp (Context.register new)
      (fun kept c' => Leaves c c' (Registers c.registry.capacity new kept rs)) c := by
  obtain ⟨rs', hreg, hl⟩ := h.register new
  exact ⟨Registry.capacity_register .., rs', hl, hreg⟩

theorem wp_store (h : c.registry.Lists rs) (v : Vertex) :
    wp (Context.resolve v .store).run (fun found c' => Leaves c c' (StoredBy c v rs found)) c := by
  have hbuilt := Context.wpE_resolve_undisturbed v c
  unfold StoredBy
  rw [Context.resolve_store, wp_run, wpE_bind]
  rcases hrun : (Context.resolve v .bypass).run.run c with ⟨e | built, c'⟩
  · unfold wpE wp at hbuilt ⊢
    rw [hrun] at hbuilt ⊢
    obtain ⟨hv, rfl⟩ := hbuilt
    exact ⟨rfl, rs, h, Or.inr ⟨hv, e, rfl, rfl, rfl⟩⟩
  · rw [wpE_of_run hrun] at hbuilt ⊢
    obtain ⟨hv, hid, hc⟩ := hbuilt
    rw [← hc.registry] at h
    rw [wpE_lift, ← hc.registry]
    refine wp_mono (wp_register h built) fun kept c'' hkept => ?_
    obtain ⟨hcap, rs', hl, hreg⟩ := hkept
    exact ⟨hcap.trans (congrArg Registry.capacity hc.registry), rs', hl,
      Or.inl ⟨hv, built, kept, hid, rfl, hreg, rfl⟩⟩

theorem wp_lookup (h : c.registry.Lists rs) (key : NodeKey) :
    wp (Context.lookup key).run
      (fun found c' => Leaves c c' fun rs' => FoundBy c rs found rs' key) c := by
  unfold Context.lookup
  cases key with
  | vertex v =>
    show wp (_ >>= _ : Resolving _).run _ _
    rw [wp_run, wpE_bind, wpE_lift]
    refine wp_mono (wp_cached? h v.id) fun found c' hc => ?_
    rcases hc with ⟨hm, rfl, rfl⟩ | ⟨r, rfl, hcap, rs', hl, hhit⟩
    · have hfound : wp (Context.resolve v .store).run
          (fun found c'' => Leaves c' c'' fun rs' => FoundBy c' rs found rs' (.vertex v)) c' :=
        wp_mono (wp_store h v) fun _ _ hl => hl.imp fun _ hs => Or.inr ⟨hm, hs⟩
      exact wp_run.1 hfound
    · exact ⟨hcap, rs', hl, Or.inl ⟨r, hhit, rfl⟩⟩
  | id id => exact wp_known h id
  | node n => exact wp_known h n.id
  | value v =>
    unfold Context.vertexOf
    show wp (_ >>= _ : Resolving _).run _ _
    rw [wp_run, wpE_bind, wpE_bind, wpE_get]
    cases hv : c.bindings.vertex? v with
    | none => exact ⟨rfl, rs, h, Or.inr ⟨hv, rfl, rfl⟩⟩
    | some id =>
      have hfound : wp (Context.known id).run
          (fun found c' => Leaves c c' fun rs' => FoundBy c rs found rs' (.value v)) c :=
        wp_mono (wp_known h id) fun _ _ hl => hl.imp fun _ hk => Or.inl ⟨id, hv, hk⟩
      exact wp_run.1 hfound

theorem contains_eq (h : c.registry.Lists rs) (id : VertexId) :
    c.registry.contains id = decide (∃ r ∈ rs, r.id = id) := by
  unfold Registry.contains
  rcases missing_or_exists id rs with hm | ⟨r, hr, rfl⟩
  · rw [h.peek?_of_missing hm]
    exact (decide_eq_false fun ⟨r, hr, hid⟩ => hm r hr hid).symm
  · rw [h.peek?_of_mem hr]
    exact (decide_eq_true ⟨r, hr, rfl⟩).symm

/-- A call answers as it should, and leaves the pairs that it should. -/
theorem wp_answered (h : c.registry.Lists rs) (call : Access) :
    wp call.run (fun answer c' => Leaves c c' fun rs' => call.Answered c rs answer rs') c := by
  cases call with
  | lookup key =>
    show wp (_ >>= _) _ _
    rw [wp_bind]
    exact wp_mono (wp_lookup h key) fun found _ hl => hl.imp fun _ hf => ⟨found, rfl, hf⟩
  | register new =>
    show wp (_ >>= _) _ _
    rw [wp_bind]
    exact wp_mono (wp_register h new) fun kept _ hl => hl.imp fun _ hreg => ⟨kept, rfl, hreg⟩
  | resolve v policy =>
    show wp (_ >>= _) _ _
    rw [wp_bind]
    cases policy with
    | store => exact wp_mono (wp_store h v) fun found _ hl => hl.imp fun _ hs => ⟨found, rfl, hs⟩
    | bypass =>
      have hreg : wp (Context.resolve v .bypass).run (fun _ c' => c'.registry = c.registry) c :=
        wp_run.2 (wpE_mono (Context.wpE_resolve_undisturbed v c) (fun _ _ h => h.2.2.registry)
          fun _ _ h => congrArg Context.registry h.2)
      exact ⟨congrArg Registry.capacity hreg, rs, hreg ▸ h, rfl, rfl⟩
  | contains id => exact ⟨rfl, rs, h, rfl, congrArg Answer.yes (contains_eq h id)⟩
  | stage r => exact ⟨rfl, rs, h, rfl, rfl⟩
  | unstage id => exact ⟨rfl, rs, h, rfl, rfl⟩
  | clear => exact ⟨rfl, [], h.clear, rfl, rfl⟩

/-! ### The order of the pairs -/

def Latest (bound : Option Nat) (rs : List Registration) (used : List VertexId) : Prop :=
  rs.map (·.id) = firsts bound (lastUses used)

theorem latest_of_hit {r : Registration} (h : c.registry.Lists rs) {bound : Option Nat}
    (hrs : Latest bound rs used) (hhit : Hit id r rs rs') :
    c.registry.contains id = true ∧ Latest bound rs' (id :: used) := by
  refine ⟨?_, hhit.firsts_eq h.nodup hrs⟩
  obtain ⟨rfl, before, after, rfl, -⟩ := hhit
  rw [contains_eq h]
  exact decide_eq_true ⟨r, List.mem_append_right _ (List.mem_cons_self ..), rfl⟩

theorem contains_of_missing (h : c.registry.Lists rs) (hm : Missing id rs) :
    c.registry.contains id = false := by
  rw [contains_eq h]
  exact decide_eq_false fun ⟨r, hr, hid⟩ => hm r hr hid

theorem latest_of_registers {new kept : Registration} (h : c.registry.Lists rs)
    (hrs : Latest c.registry.capacity rs used)
    (hreg : Registers c.registry.capacity new kept rs rs') :
    Latest c.registry.capacity rs' (new.id :: used) := by
  rcases hreg with hhit | ⟨-, henters⟩
  · exact (latest_of_hit h hrs hhit).2
  · exact henters.firsts_eq h.room hrs

theorem latest_of_knownBy {answer : Except Error Registration} (h : c.registry.Lists rs)
    (hrs : Latest c.registry.capacity rs used) (hk : KnownBy c id rs answer rs') :
    Latest c.registry.capacity rs' ([id].filter c.registry.contains ++ used) := by
  rcases hk with ⟨r, hhit, -⟩ | ⟨hm, rfl, -⟩
  · obtain ⟨hc, hl⟩ := latest_of_hit h hrs hhit
    rw [List.filter_cons_of_pos hc]
    exact hl
  · rw [List.filter_cons_of_neg (by rw [contains_of_missing h hm]; exact Bool.false_ne_true)]
    exact hrs

theorem latest_of_storedBy {v : Vertex} {answer : Except Error Registration} (h : c.registry.Lists rs)
    (hrs : Latest c.registry.capacity rs used) (hs : StoredBy c v rs answer rs') :
    Latest c.registry.capacity rs' ((if v.resolves then [v.id] else []) ++ used) := by
  rcases hs with ⟨hv, built, kept, hid, -, hreg, -⟩ | ⟨hv, e, -, rfl, -⟩
  · rw [if_pos hv, ← hid]
    exact latest_of_registers h hrs hreg
  · rw [if_neg (by rw [hv]; exact Bool.false_ne_true)]
    exact hrs

theorem latest_of_answered {call : Access} {answer : Answer} (h : c.registry.Lists rs)
    (hrs : Latest c.registry.capacity rs used) (ha : call.Answered c rs answer rs') :
    Latest c.registry.capacity rs' (call.record c used) := by
  cases call with
  | lookup key =>
    obtain ⟨found, -, hf⟩ := ha
    cases key with
    | vertex v =>
      show Latest _ _ ((if c.registry.contains v.id || v.resolves then [v.id] else []) ++ used)
      rcases hf with ⟨r, hhit, -⟩ | ⟨hm, hs⟩
      · obtain ⟨hc, hl⟩ := latest_of_hit h hrs hhit
        rw [hc, Bool.true_or, if_pos rfl]
        exact hl
      · rw [contains_of_missing h hm, Bool.false_or]
        exact latest_of_storedBy h hrs hs
    | id id => exact latest_of_knownBy h hrs hf
    | node n => exact latest_of_knownBy h hrs hf
    | value v =>
      show Latest _ _ ((c.bindings.vertex? v).toList.filter c.registry.contains ++ used)
      rcases hf with ⟨id, hv, hk⟩ | ⟨hv, rfl, -⟩
      · rw [hv]
        exact latest_of_knownBy h hrs hk
      · rw [hv]
        exact hrs
  | register new =>
    obtain ⟨kept, -, hreg⟩ := ha
    exact latest_of_registers h hrs hreg
  | resolve v policy =>
    cases policy with
    | store =>
      obtain ⟨found, -, hs⟩ := ha
      exact latest_of_storedBy h hrs hs
    | bypass =>
      obtain ⟨rfl, -⟩ := ha
      exact hrs
  | contains id =>
    obtain ⟨rfl, -⟩ := ha
    exact hrs
  | stage r =>
    obtain ⟨rfl, -⟩ := ha
    exact hrs
  | unstage id =>
    obtain ⟨rfl, -⟩ := ha
    exact hrs
  | clear =>
    obtain ⟨rfl, -⟩ := ha
    exact (firsts_nil _).symm

/-- The pairs in the context are those of the vertices used last. -/
def Ordered (bound : Option Nat) (s : Context × List VertexId) : Prop :=
  s.1.registry.capacity = bound ∧ ∃ rs, s.1.registry.Lists rs ∧ Latest bound rs s.2

theorem ordered_step {bound : Option Nat} {s : Context × List VertexId} (h : Ordered bound s)
    (call : Access) : Ordered bound ((call.run.run s.1).2, call.record s.1 s.2) := by
  obtain ⟨rfl, rs, hl, hlast⟩ := h
  obtain ⟨hcap, rs', hl', ha⟩ := wp_answered hl call
  exact ⟨hcap, rs', hl', latest_of_answered hl hlast ha⟩

theorem ordered_foldl {bound : Option Nat} (calls : List Access) {s : Context × List VertexId}
    (h : Ordered bound s) :
    Ordered bound (calls.foldl (fun s call => ((call.run.run s.1).2, call.record s.1 s.2)) s) := by
  induction calls generalizing s with
  | nil => exact h
  | cons call calls ih => exact ih (ordered_step h call)

end Access

namespace Context
open Recency Access

/-- A registry that starts out empty is, after any calls, the list of the pairs whose vertices were
used last, the latest first and no more of them than there is room for, each under the vertex of its
node. Any further call answers by that list and leaves it as `Answered` says. -/
theorem accesses_keep_last_used (c : Context) (capacity : Option Nat) (calls : List Access) :
    ∃ c' used rs, afterAll calls { c with registry := .ofCapacity capacity } = (c', used) ∧
      c'.registry.entries = rs.map (fun r => (r.id, r)) ∧
      (∀ n, capacity = some n → n ≠ 0 → rs.length ≤ n) ∧
      rs.map (·.id) = firsts (capacity.filter (· ≠ 0)) (lastUses used) ∧
      ∀ call : Access, ∃ rs',
        (call.run.run c').2.registry.entries = rs'.map (fun r => (r.id, r)) ∧
        call.Answered c' rs (call.run.run c').1 rs' := by
  have hnew : Ordered (capacity.filter (· ≠ 0)) ({ c with registry := .ofCapacity capacity }, []) :=
    ⟨rfl, [], Registry.lists_ofCapacity capacity, (firsts_nil _).symm⟩
  obtain ⟨hcap, rs, hl, hlast⟩ := ordered_foldl calls hnew
  refine ⟨_, _, rs, rfl, hl.entries, fun n hn h0 => ?_, hlast, fun call => ?_⟩
  · refine hl.within n ?_
    rw [hcap, hn]
    exact Option.filter_eq_some_iff.2 ⟨rfl, decide_eq_true h0⟩
  · obtain ⟨-, rs', hl', ha⟩ := wp_answered hl call
    exact ⟨rs', hl'.entries, ha⟩

end Context

end CodeGraph
