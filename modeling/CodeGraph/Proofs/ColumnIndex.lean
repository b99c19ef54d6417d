import CodeGraph.Proofs.Binding
import CodeGraph.Table.Column

/-!
# What the index of a column knows

The index of a data column is filled while cells are added, from the vertices that their values belong to
at that time: its marks. It gives the first row that is marked with a vertex (`DataColumn.Marked`). Values
may be bound later, and a value that is bound stays so, so a mark never turns wrong, but one may be
missing: a column with an index finds what a column without one finds, but for values of a vertex that
no row is marked with (`DataColumn.index_finds_marked`).
-/

namespace CodeGraph

namespace DataColumn
variable {b b' : Bindings} {c : DataColumn} {cell x : Cell Ref} {id : VertexId}
  {ms : List (Option VertexId)}

theorem vertexIn_eq_some_iff : vertexIn b cell = some id ↔ b.cellKey cell = .value (.vertex id) := by
  unfold vertexIn Bindings.cellKey
  cases cell with
  | null | text | path => simp [Cell.value?, Cell.key]
  | value v => simp [Cell.value?, Cell.key, Bindings.identity_eq_vertex_iff, Bindings.vertex?]

theorem sameCell_iff_of_vertexIn (h : vertexIn b cell = some id) :
    b.sameCell x cell = true ↔ vertexIn b x = some id := by
  unfold Bindings.sameCell
  rw [decide_eq_true_iff, vertexIn_eq_some_iff.1 h, vertexIn_eq_some_iff]

theorem vertexIn_mono (he : b.Extends b') (h : vertexIn b cell = some id) :
    vertexIn b' cell = some id := by
  cases cell with
  | null | text | path => cases h
  | value v => exact he _ _ h

/-! ### Marks -/

/-- There is a mark for each row, and the index, if there is one, gives for each vertex the first row that
is marked with it. -/
structure Marked (c : DataColumn) (ms : List (Option VertexId)) : Prop where
  length : ms.length = c.cells.size
  index : ∀ m, c.index = some m → ∀ id : VertexId, m[id]? = ms.findIdx? (· = some id)

theorem marked_new (name : String) (indexed : Bool) : (new name indexed).Marked [] := by
  refine ⟨rfl, fun m hm id => ?_⟩
  cases indexed with
  | false => cases hm
  | true =>
    cases hm
    exact Std.HashMap.getElem?_empty

namespace Marked

theorem push (h : c.Marked ms) (b : Bindings) (cell : Cell Ref) :
    (c.push b cell).Marked (ms ++ [vertexIn b cell]) := by
  refine ⟨?_, fun m hm id => ?_⟩
  · show _ = (c.cells.push cell).size
    rw [List.length_append, h.length, Array.size_push]
    rfl
  · obtain ⟨m₀, hm₀, rfl⟩ := Option.map_eq_some_iff.1 hm
    have hold := h.index m₀ hm₀ id
    rw [List.findIdx?_append, ← hold, h.length]
    cases vertexIn b cell with
    | none => simp
    | some y =>
      simp only [Std.HashMap.getElem?_insertIfNew, Std.HashMap.mem_iff_isSome_getElem?]
      by_cases hy : y = id
      · subst hy
        cases m₀[y]? <;> simp
      · simp [hy]

theorem contains_index_iff (h : c.Marked ms) {m : Std.HashMap VertexId Nat} (hm : c.index = some m)
    (id : VertexId) : m.contains id = true ↔ some id ∈ ms := by
  rw [Std.HashMap.contains_eq_isSome_getElem?, h.index m hm, List.findIdx?_isSome, List.any_eq_true]
  simp

theorem contains_iff (h : c.Marked ms) (hi : c.hasIndex = true) :
    c.contains b cell = true ↔
      match vertexIn b cell with
      | some id => some id ∈ ms
      | none => ∃ x ∈ c.cells.toList, b.sameCell x cell = true := by
  obtain ⟨m, hm⟩ := Option.isSome_iff_exists.1 hi
  unfold contains
  rw [hm]
  cases vertexIn b cell with
  | some id => exact h.contains_index_iff hm id
  | none =>
    show c.cells.any _ = true ↔ _
    rw [← Array.any_toList, List.any_eq_true]

end Marked

theorem contains_iff_of_not_hasIndex (h : c.hasIndex = false) :
    c.contains b cell = true ↔ ∃ x ∈ c.cells.toList, b.sameCell x cell = true := by
  have hnone : c.index = none := Option.isNone_iff_eq_none.1 (Option.isSome_eq_false_iff.1 h)
  unfold contains
  rw [hnone]
  show c.cells.any _ = true ↔ _
  rw [← Array.any_toList, List.any_eq_true]

/-! ### Values that are bound while a column is filled -/

/-- What happens to a column and to the values in it: a cell is added, or a value is bound with all that
is below it, as when a vertex is resolved to it. -/
inductive Act where
  | add (cell : Cell Ref)
  | bind (id : VertexId) (v : Value)

namespace Act
variable {acts : List Act}

def step (s : Bindings × DataColumn) : Act → Bindings × DataColumn
  | add cell => (s.1, s.2.push s.1 cell)
  | bind id v => (s.1.bindAll id v, s.2)

def runAll (acts : List Act) (s : Bindings × DataColumn) : Bindings × DataColumn := acts.foldl step s

def added : List Act → List (Cell Ref)
  | [] => []
  | add cell :: acts => cell :: added acts
  | bind .. :: acts => added acts

/-- The vertices that the values of the cells belong to when these are added. -/
def marks (b : Bindings) : List Act → List (Option VertexId)
  | [] => []
  | add cell :: acts => vertexIn b cell :: marks b acts
  | bind id v :: acts => marks (b.bindAll id v) acts

theorem extends_runAll (acts : List Act) (b : Bindings) (c : DataColumn) :
    b.Extends (runAll acts (b, c)).1 := by
  induction acts generalizing b c with
  | nil => exact .refl b
  | cons a acts ih =>
    cases a with
    | add cell => exact ih b (c.push b cell)
    | bind id v => exact (b.extends_bindAll id v).trans (ih (b.bindAll id v) c)

/-- The rows are marked as they were added, and nothing but the marks is in the index. -/
theorem marked_runAll (h : c.Marked ms) (acts : List Act) (b : Bindings) :
    (runAll acts (b, c)).2.Marked (ms ++ marks b acts) := by
  induction acts generalizing b c ms with
  | nil => rwa [marks, List.append_nil]
  | cons a acts ih =>
    cases a with
    | add cell =>
      rw [marks, List.append_cons]
      exact ih (h.push b cell) b
    | bind id v => exact ih h (b.bindAll id v)

theorem hasIndex_runAll (acts : List Act) (b : Bindings) (c : DataColumn) :
    (runAll acts (b, c)).2.hasIndex = c.hasIndex := by
  induction acts generalizing b c with
  | nil => rfl
  | cons a acts ih =>
    cases a with
    | add cell => exact (ih b (c.push b cell)).trans (Option.isSome_map ..)
    | bind id v => exact ih (b.bindAll id v) c

theorem cells_runAll (acts : List Act) (b : Bindings) (c : DataColumn) :
    (runAll acts (b, c)).2.cells.toList = c.cells.toList ++ added acts := by
  induction acts generalizing b c with
  | nil => exact (List.append_nil _).symm
  | cons a acts ih =>
    cases a with
    | add cell =>
      refine (ih b (c.push b cell)).trans ?_
      show (c.cells.push cell).toList ++ _ = _
      rw [Array.toList_push, added, ← List.append_cons]
    | bind id v => exact ih (b.bindAll id v) c

theorem runAll_fst (acts : List Act) (b : Bindings) (c c' : DataColumn) :
    (runAll acts (b, c)).1 = (runAll acts (b, c')).1 := by
  induction acts generalizing b c c' with
  | nil => rfl
  | cons a acts ih => cases a <;> exact ih ..

theorem exists_of_mem_marks (h : some id ∈ marks b acts) (c : DataColumn) :
    ∃ x ∈ added acts, vertexIn (runAll acts (b, c)).1 x = some id := by
  induction acts generalizing b c with
  | nil => cases h
  | cons a acts ih =>
    cases a with
    | bind y v => exact ih h c
    | add cell =>
      rcases List.mem_cons.1 h with h | h
      · exact ⟨cell, List.mem_cons_self .., vertexIn_mono (extends_runAll acts b _) h.symm⟩
      · obtain ⟨x, hx, hv⟩ := ih h (c.push b cell)
        exact ⟨x, List.mem_cons_of_mem _ hx, hv⟩

end Act

open Act

/-- Two columns of the same cells, with an index and without one, added to in the same order while values
are bound. The one without finds exactly what is the same as an added cell. The one with an index finds
of that all but the values of vertices that no added value belonged to when it was added. -/
theorem index_finds_marked (b : Bindings) (name : String) (acts : List Act) (cell : Cell Ref) :
    ∃ b' c u, runAll acts (b, new name true) = (b', c) ∧ runAll acts (b, new name false) = (b', u) ∧
      c.cells = u.cells ∧ u.cells.toList = added acts ∧
      (u.contains b' cell = true ↔ ∃ x ∈ added acts, b'.sameCell x cell = true) ∧
      (c.contains b' cell = true ↔ u.contains b' cell = true ∧
        ∀ id, vertexIn b' cell = some id → some id ∈ marks b acts) := by
  obtain ⟨⟨b', c⟩, hc⟩ : ∃ s, runAll acts (b, new name true) = s := ⟨_, rfl⟩
  obtain ⟨⟨b'', u⟩, hu⟩ : ∃ s, runAll acts (b, new name false) = s := ⟨_, rfl⟩
  have hsame := runAll_fst acts b (new name true) (new name false)
  have hmarked := marked_runAll (marked_new name true) acts b
  have hindex := hasIndex_runAll acts b (new name true)
  have hplain := hasIndex_runAll acts b (new name false)
  have hcells (i : Bool) : (runAll acts (b, new name i)).2.cells.toList = added acts :=
    cells_runAll acts b (new name i)
  have hcells' := hcells false
  replace hcells := hcells true
  have hmem (id : VertexId) (h : some id ∈ marks b acts) := exists_of_mem_marks h (new name true)
  rw [hc] at hmarked hindex hcells hmem
  rw [hu] at hplain hcells'
  rw [hc, hu] at hsame
  obtain rfl : b' = b'' := hsame
  refine ⟨b', c, u, hc, hu, Array.toList_inj.1 (hcells.trans hcells'.symm), hcells', ?_, ?_⟩
  · rw [contains_iff_of_not_hasIndex hplain, hcells']
  · rw [contains_iff_of_not_hasIndex hplain, hmarked.contains_iff hindex, hcells, hcells']
    cases hv : vertexIn b' cell with
    | none => simp
    | some id =>
      simp only [sameCell_iff_of_vertexIn hv, Option.some.injEq, forall_eq', List.nil_append]
      exact (and_iff_right_of_imp (hmem id)).symm

/-- A value is added while it belongs to no vertex, and is bound later. -/
def boundLater : List Act :=
  let v : Value := .node (.built 0) (.ofKind "Name") []
  [.add (.value v), .bind ⟨1⟩ v]

/-- An index makes a difference to what is found: it does not know a value that is bound only after it was
added, though the column has the value in a cell. -/
theorem index_misses_bound_later :
    ¬ ∀ (b : Bindings) (name : String) (acts : List Act) (cell : Cell Ref),
      let s := runAll acts (b, new name true)
      let u := runAll acts (b, new name false)
      s.2.contains s.1 cell = u.2.contains u.1 cell ∧ (cell ∈ added acts → s.2.contains s.1 cell = true) := by
  intro h
  let v : Value := .node (.built 0) (.ofKind "Name") []
  have hunbound : marks .empty boundLater = [none] :=
    congrArg (· :: []) (Std.HashMap.getElem?_empty (a := v.tag))
  have hbound : vertexIn (runAll boundLater (.empty, new "c" true)).1 (.value v) = some ⟨1⟩ :=
    Bindings.owns_bindAll (fun _ _ => Std.HashMap.getElem?_empty) v v.self_mem_preorder
  have hmarked := marked_runAll (marked_new "c" true) boundLater .empty
  have hfound := (hmarked.contains_iff rfl).1 ((h .empty "c" boundLater (.value v)).2 (List.mem_cons_self ..))
  rw [hbound, hunbound] at hfound
  cases List.mem_singleton.1 hfound

end DataColumn

end CodeGraph
