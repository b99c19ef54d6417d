import CodeGraph.Ident

/-!
# Marks

A search marks the vertices it has met, each once. There are `2 ^ 64` names of vertices, so a search
that marks a vertex at every step ends; `Marks.count_le` is the bound.
-/

namespace CodeGraph

theorem length_le_of_nodup_of_lt {n : Nat} {ks : List Nat} (hd : ks.Nodup) (hlt : ∀ k ∈ ks, k < n) :
    ks.length ≤ n := by
  induction n generalizing ks with
  | zero =>
    cases ks with
    | nil => simp
    | cons k ks => exact absurd (hlt k (List.mem_cons_self ..)) (Nat.not_lt_zero k)
  | succ n ih =>
    have h := ih (hd.erase n) fun k hk => by
      have hne : k ≠ n := fun he => List.Nodup.not_mem_erase hd (he ▸ hk)
      have := hlt k (List.mem_of_mem_erase hk)
      omega
    have := @List.length_erase _ _ _ n ks
    split at this <;> omega

/-- The vertices met so far, the latest first. -/
structure Marks where
  ids : List VertexId
  nodup : ids.Nodup

namespace Marks

def single (id : VertexId) : Marks := ⟨[id], by simp⟩

def count (m : Marks) : Nat := m.ids.length

/-- Marks a vertex that has not been met. -/
def add? (m : Marks) (id : VertexId) : Option Marks :=
  if h : id ∈ m.ids then none else some ⟨id :: m.ids, List.nodup_cons.mpr ⟨h, m.nodup⟩⟩

theorem mem_of_add?_eq_none {m : Marks} {id : VertexId} (h : m.add? id = none) : id ∈ m.ids := by
  unfold add? at h
  split at h
  · assumption
  · cases h

theorem ids_of_add? {m m' : Marks} {id : VertexId} (h : m.add? id = some m') :
    id ∉ m.ids ∧ m'.ids = id :: m.ids := by
  unfold add? at h
  split at h
  · cases h
  · next hn =>
    cases h
    exact ⟨hn, rfl⟩

theorem count_of_add? {m m' : Marks} {id : VertexId} (h : m.add? id = some m') :
    m'.count = m.count + 1 := by
  simp only [add?] at h
  split at h
  · cases h
  · cases h; rfl

theorem count_le (m : Marks) : m.count ≤ UInt64.size := by
  have h := @length_le_of_nodup_of_lt UInt64.size (m.ids.map fun id => id.word.toNat)
    (by
      refine List.Pairwise.map _ (fun a b hab hne => hab ?_) m.nodup
      cases a; cases b
      simpa [UInt64.toNat_inj] using hne)
    (by
      intro k hk
      obtain ⟨id, -, rfl⟩ := List.mem_map.mp hk
      exact id.word.toNat_lt_size)
  simpa [count] using h

end Marks

end CodeGraph
