import CodeGraph.Proofs.ColumnIndex
import CodeGraph.Table.Comparison
import CodeGraph.Table.Edit

/-!
# Equality of cells

Two cells are equal when they are known by the same (`Bindings.equalCells_eq_sameCell`), so equality is an
equivalence whatever is bound. What a value is known by can change only once, when an object that belonged
to no vertex is bound, and then it changes for every cell of that object alike (`Bindings.renew`). So equal
cells stay equal while objects are bound, and a cell that was found in a column that is searched from end to
end goes on to be found, also when cells are added (`Column.equal_cells_stay_equal`).
-/

namespace CodeGraph

def CellKey.map {ι κ : Type} (f : ι → κ) : CellKey ι → CellKey κ
  | .null => .null
  | .value tag => .value (f tag)
  | .text s => .text s
  | .path tags => .path (tags.map f)

namespace Bindings
variable {b b' : Bindings} {u v : Value} {p q : FlowPath Ref} {x y : Cell Ref}

/-! ### Comparing is comparing what cells are known by -/

theorem sameValue_iff : b.sameValue u v = true ↔ b.identity u.tag = b.identity v.tag := by
  unfold sameValue identity vertex?
  cases hu : b.vertexOf[u.tag]? with
  | none =>
    cases hv : b.vertexOf[v.tag]? with
    | none => simp
    | some y =>
      -- one object cannot both be bound and not be bound
      have hne : u.tag ≠ v.tag := fun he => by rw [he, hv] at hu; cases hu
      simp [hne]
  | some x =>
    cases hv : b.vertexOf[v.tag]? with
    | none =>
      have hne : u.tag ≠ v.tag := fun he => by rw [he, hv] at hu; cases hu
      simp [hne]
    | some y => simp

theorem samePath_iff :
    b.samePath p q = true ↔ p.map (b.identity ·.tag) = q.map (b.identity ·.tag) := by
  unfold samePath
  induction p generalizing q with
  | nil => cases q <;> simp
  | cons u p ih =>
    cases q with
    | nil => simp
    | cons v q =>
      rw [List.map_cons, List.map_cons, List.cons.injEq, ← ih, ← sameValue_iff]
      simp [and_left_comm]

theorem equalCells_eq_sameCell (b : Bindings) (x y : Cell Ref) : b.equalCells x y = b.sameCell x y := by
  rw [Bool.eq_iff_iff, sameCell, decide_eq_true_iff]
  unfold equalCells cellKey Cell.key
  cases x <;> cases y <;> simp [sameValue_iff, samePath_iff]

theorem equivalence_equalCells (b : Bindings) : Equivalence fun x y => b.equalCells x y = true := by
  simp only [equalCells_eq_sameCell, sameCell, decide_eq_true_iff]
  exact ⟨fun _ => rfl, Eq.symm, Eq.trans⟩

/-! ### Binding more -/

/-- What a node is known by later: a vertex for good, an object until it is bound. -/
def renew (b' : Bindings) : Identity → Identity
  | .vertex id => .vertex id
  | .unbound r => b'.identity r

theorem Extends.identity_eq (h : b.Extends b') (r : Ref) : b'.identity r = b'.renew (b.identity r) := by
  cases hr : b.vertexOf[r]? with
  | none =>
    have hid : b.identity r = .unbound r := by
      unfold identity
      rw [hr]
    rw [hid]
    rfl
  | some id =>
    rw [identity_eq_vertex_iff.2 hr]
    exact identity_eq_vertex_iff.2 (h r id hr)

theorem Extends.cellKey_eq (h : b.Extends b') (x : Cell Ref) :
    b'.cellKey x = (b.cellKey x).map b'.renew := by
  unfold cellKey
  cases x with
  | null | text => rfl
  | value v => exact congrArg CellKey.value (h.identity_eq v.tag)
  | path p =>
    refine congrArg CellKey.path ?_
    rw [List.map_map]
    exact List.map_congr_left fun v _ => h.identity_eq v.tag

theorem Extends.equalCells (h : b.Extends b') (hxy : b.equalCells x y = true) :
    b'.equalCells x y = true := by
  rw [equalCells_eq_sameCell, sameCell, decide_eq_true_iff] at hxy ⊢
  rw [h.cellKey_eq, h.cellKey_eq, hxy]

theorem extends_bind (b : Bindings) (id : VertexId) (r : Ref) : b.Extends (b.bind id r) := by
  intro r' id' hr
  rw [getElem?_bind, hr]
  split <;> rfl

end Bindings

namespace Column
variable {b : Bindings} {c : Column} {cell : Cell Ref} {g : Context}

/-! ### Columns that are searched -/

/-- A column that is searched from end to end: one that has cells but no index to them. -/
def Searched (c : Column) : Prop := c.isPredicate = false ∧ c.hasIndex = false

def Finds (b : Bindings) (c : Column) (cell : Cell Ref) : Prop :=
  ∃ cells, c.cells = .ok cells ∧ ∃ x ∈ cells.toList, b.equalCells x cell = true

theorem contains_iff_finds (h : c.Searched) :
    ((c.contains cell).run g).1 = true ↔ c.Finds g.bindings cell := by
  unfold Finds
  simp only [Bindings.equalCells_eq_sameCell]
  cases c with
  | predicate => cases h.1
  | data d =>
    refine (DataColumn.contains_iff_of_not_hasIndex h.2).trans ⟨fun hx => ⟨d.cells, rfl, hx⟩, ?_⟩
    rintro ⟨_, hcells, hx⟩
    cases hcells
    exact hx
  | any name cells =>
    show cells.any _ = true ↔ _
    rw [← Array.any_toList, List.any_eq_true]
    refine ⟨fun hx => ⟨cells, rfl, hx⟩, ?_⟩
    rintro ⟨_, hcells, hx⟩
    cases hcells
    exact hx

/-- Something that happens to the values and to a column of them: an object is built, an object is bound
to a vertex unless it is bound already, or a cell is added if the column takes any. -/
inductive Act where
  | build
  | bind (id : VertexId) (r : Ref)
  | add (cell : Cell Ref)

namespace Act

def step (s : Bindings × Column) : Act → Bindings × Column
  | build => ({ s.1 with serial := s.1.serial + 1 }, s.2)
  | bind id r => (s.1.bind id r, s.2)
  | add cell => (s.1, (s.2.extend s.1 cell).2)

def runAll (acts : List Act) (s : Bindings × Column) : Bindings × Column := acts.foldl step s

theorem extends_step (s : Bindings × Column) (a : Act) : s.1.Extends (a.step s).1 := by
  cases a with
  | build | add => exact .refl s.1
  | bind id r => exact s.1.extends_bind id r

theorem searched_step {s : Bindings × Column} (h : s.2.Searched) (a : Act) : (a.step s).2.Searched := by
  obtain ⟨b, c⟩ := s
  cases a with
  | build | bind => exact h
  | add cell =>
    cases c with
    | predicate => cases h.1
    | data d => exact ⟨rfl, (Option.isSome_map ..).trans h.2⟩
    | any => exact ⟨rfl, rfl⟩

theorem finds_step {s : Bindings × Column} (h : s.2.Finds s.1 cell) (a : Act) :
    (a.step s).2.Finds (a.step s).1 cell := by
  obtain ⟨b, c⟩ := s
  obtain ⟨cells, hcells, x, hx, hsame⟩ := h
  cases a with
  | build => exact ⟨cells, hcells, x, hx, (extends_step (b, c) .build).equalCells hsame⟩
  | bind id r => exact ⟨cells, hcells, x, hx, (b.extends_bind id r).equalCells hsame⟩
  | add new =>
    have hpush : x ∈ (cells.push new).toList := by
      rw [Array.toList_push]
      exact List.mem_append_left _ hx
    cases c with
    | predicate => cases hcells
    | data d =>
      cases hcells
      exact ⟨_, rfl, x, hpush, hsame⟩
    | any name old =>
      cases hcells
      exact ⟨_, rfl, x, hpush, hsame⟩

theorem runAll_extends (acts : List Act) (s : Bindings × Column) : s.1.Extends (runAll acts s).1 := by
  unfold runAll
  induction acts generalizing s with
  | nil => exact .refl s.1
  | cons a acts ih => exact (extends_step s a).trans (ih _)

theorem finds_runAll {s : Bindings × Column} (hs : s.2.Searched) (h : s.2.Finds s.1 cell) (acts : List Act) :
    (runAll acts s).2.Searched ∧ (runAll acts s).2.Finds (runAll acts s).1 cell := by
  unfold runAll
  induction acts generalizing s with
  | nil => exact ⟨hs, h⟩
  | cons a acts ih => exact ih (searched_step hs a) (finds_step h a)

end Act

open Act

/-- Equality of cells is an equivalence whatever is bound, and cells that are equal stay equal whatever is
bound later. A column without an index finds a cell if one of its own is equal to it, and goes on to find
it. -/
theorem equal_cells_stay_equal (b : Bindings) (c : Column) (acts : List Act) :
    ∃ b' c', runAll acts (b, c) = (b', c') ∧
      Equivalence (fun x y => b.equalCells x y = true) ∧
      (∀ x y, b.equalCells x y = true → b'.equalCells x y = true) ∧
      (c.Searched → ∀ cell (g g' : Context), g.bindings = b → g'.bindings = b' →
        (((c.contains cell).run g).1 = true ↔ c.Finds b cell) ∧
        (((c.contains cell).run g).1 = true → ((c'.contains cell).run g').1 = true)) := by
  refine ⟨(runAll acts (b, c)).1, (runAll acts (b, c)).2, rfl, b.equivalence_equalCells,
    fun x y => (runAll_extends acts (b, c)).equalCells, ?_⟩
  rintro hs cell g g' rfl hb'
  refine ⟨contains_iff_finds hs, fun hfound => ?_⟩
  obtain ⟨hs', hfound'⟩ :=
    finds_runAll (s := (g.bindings, c)) hs ((contains_iff_finds hs).1 hfound) acts
  rw [← hb'] at hfound'
  exact (contains_iff_finds hs').2 hfound'

end Column

end CodeGraph
