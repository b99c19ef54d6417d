import Mathlib.Data.List.Forall2
import CodeGraph.Proofs.Acceptance
import CodeGraph.Table.Column

/-!
# Columns that list vertices

`DataColumn.Lists` says that a column holds, row by row, the values of given readings, and that its
index knows exactly their vertices. A column that lists readings goes on to do so while values are
built and bound, lists one more after a push, and answers membership by the vertex.
-/

namespace CodeGraph

namespace Reading

def id (r : Reading) : VertexId := r.node.id

/-- Every node of the value is seen as the vertex. -/
def Owned (r : Reading) : Prop := ∀ u ∈ r.value.preorder, u.tag = .vertex r.id

theorem owned_of_read {l : Language} {v : Vertex} {r : Reading} (h : l.read v = some r) :
    r.Owned := by
  obtain ⟨hv, hu⟩ := Language.read_eq_some h
  rw [← hv] at hu
  exact hu

theorem id_of_read {l : Language} {v : Vertex} {r : Reading} (h : l.read v = some r) :
    r.id = v.id :=
  congrArg Vertex.id (Language.read_eq_some h).1

theorem Owned.owns {r : Reading} (h : r.Owned) {b : Bindings} {v : Value} (hv : b.view v = r.value) :
    b.Owns r.id v :=
  Bindings.owns_iff_view.2 (by rw [hv]; exact h)

end Reading

theorem Cell.map_eq_value_iff {ι κ : Type} {f : ι → κ} {c : Cell ι} {s : Tree κ} :
    c.map f = .value s ↔ ∃ v, c = .value v ∧ v.map f = s := by
  cases c <;> simp [Cell.map]

namespace DataColumn
variable {b b' : Bindings} {c : DataColumn} {rs : List Reading} {r : Reading} {v : Value}

/-- The cells of a column are the values of these readings, and its index knows their vertices. -/
structure Lists (b : Bindings) (c : DataColumn) (rs : List Reading) : Prop where
  cells : c.cells.toList.map (Cell.map b.identity) = rs.map fun r => .value r.value
  index : ∃ index, c.index = some index ∧ ∀ id, id ∈ index ↔ ∃ r ∈ rs, r.id = id

theorem lists_new (b : Bindings) (name : String) : (new name true).Lists b [] :=
  ⟨rfl, ∅, rfl, fun id => by simp⟩

namespace Lists

theorem value_of_mem (h : c.Lists b rs) {cell : Cell Ref} (hc : cell ∈ c.cells.toList) :
    ∃ v, cell = .value v ∧ ∃ r ∈ rs, b.view v = r.value := by
  have hm : cell.map b.identity ∈ rs.map fun r => Cell.value r.value := by
    rw [← h.cells]
    exact List.mem_map_of_mem hc
  obtain ⟨r, hr, heq⟩ := List.mem_map.1 hm
  obtain ⟨v, hv, hview⟩ := Cell.map_eq_value_iff.1 heq.symm
  exact ⟨v, hv, r, hr, hview⟩

theorem forall₂_cells (h : c.Lists b rs) :
    List.Forall₂ (fun cell (r : Reading) => ∃ v, cell = .value v ∧ b.view v = r.value)
      c.cells.toList rs := by
  have heq : List.Forall₂ Eq _ _ := List.forall₂_eq_eq_eq.symm ▸ h.cells
  rw [List.forall₂_map_left_iff, List.forall₂_map_right_iff] at heq
  exact heq.imp fun _ _ h => Cell.map_eq_value_iff.1 h

theorem mono (h : c.Lists b rs) (hrs : ∀ r ∈ rs, r.Owned) (he : b.Extends b') : c.Lists b' rs := by
  refine ⟨?_, h.index⟩
  rw [← h.cells]
  refine List.map_congr_left fun cell hc => ?_
  obtain ⟨v, rfl, r, hr, hview⟩ := h.value_of_mem hc
  exact congrArg Cell.value (((hrs r hr).owns hview).view_mono he)

theorem push (h : c.Lists b rs) (hr : r.Owned) (hv : b.view v = r.value) :
    (c.push b (.value v)).Lists b (rs ++ [r]) := by
  obtain ⟨index, hindex, hmem⟩ := h.index
  have hvertex : vertexIn b (.value v) = some r.id := (hr.owns hv).vertex?
  refine ⟨?_, index.insertIfNew r.id c.cells.size, ?_, fun id => ?_⟩
  · show (c.cells.push (.value v)).toList.map _ = _
    rw [Array.toList_push, List.map_append, List.map_append, h.cells]
    exact congrArg (fun s => (rs.map fun r => Cell.value r.value) ++ [Cell.value s]) hv
  · show c.index.map _ = _
    rw [hindex, hvertex]
    rfl
  · rw [Std.HashMap.mem_insertIfNew, hmem, beq_iff_eq]
    simp only [List.mem_append, List.mem_singleton]
    constructor
    · rintro (heq | ⟨x, hx, heq⟩)
      · exact ⟨r, Or.inr rfl, heq⟩
      · exact ⟨x, Or.inl hx, heq⟩
    · rintro ⟨x, hx | rfl, heq⟩
      · exact Or.inr ⟨x, hx, heq⟩
      · exact Or.inl heq

theorem contains_iff (h : c.Lists b rs) {id : VertexId} (hv : b'.vertex? v = some id) :
    c.contains b' (.value v) = true ↔ ∃ r ∈ rs, r.id = id := by
  obtain ⟨index, hindex, hmem⟩ := h.index
  have hvertex : vertexIn b' (.value v) = some id := hv
  unfold DataColumn.contains
  rw [hindex, hvertex]
  exact Std.HashMap.contains_iff_mem.trans (hmem id)

end Lists

end DataColumn

end CodeGraph
