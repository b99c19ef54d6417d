import CodeGraph.Proofs.ColumnIndex
import CodeGraph.Proofs.TableShape

/-!
# The first row of each vertex

A column with an index gets its cells from several sides: they are added to it one by one or as padding, a
table that it is in gets a row or another column, or it is itself added to a table. `Column.Journal` says
which cells a column was given since it was last empty, each with the vertex that its value belonged to
when it came. Whichever way a cell came, the index has learnt its vertex (`DataColumn.Keeps`), so it leads
to the first row of each vertex and to no row that is not there (`Column.index_gives_first_rows`).
-/

namespace CodeGraph

/-- A cell that is added to a column, and the vertex that its value belongs to at that time. -/
structure Entry where
  cell : Cell Ref
  mark : Option VertexId

namespace Entry

def of (b : Bindings) (cell : Cell Ref) : Entry := ⟨cell, DataColumn.vertexIn b cell⟩

/-- The first entry with a value of the vertex is the one of this row. -/
structure First (es : List Entry) (id : VertexId) (row : Nat) : Prop where
  here : (es[row]?).bind mark = some id
  before : ∀ i < row, (es[i]?).bind mark ≠ some id

end Entry

namespace Column

/-- What a column with an index was given since it was made or emptied. -/
inductive Journal : Column → List Entry → Prop
  | new (name : String) : Journal (.data (.new name true)) []
  | push {c c' : Column} {es : List Entry} {b : Bindings} {cell : Cell Ref} (h : Journal c es)
    (hc : c.push b cell = .ok c') : Journal c' (es ++ [.of b cell])
  | pad {c c' : Column} {es : List Entry} {b : Bindings} {cell : Cell Ref} {n : Nat} (h : Journal c es)
    (hc : c.pad b cell n = .ok c') : Journal c' (es ++ List.replicate n (.of b cell))
  /-- A table that has the column gets a row. -/
  | row {c c' : Column} {es : List Entry} {b : Bindings} {r : Row Ref} {t t' : Table} {i : Nat}
    (h : Journal c es) (hi : t.columns[i]? = some c) (ht : t.addRow b r = .ok t')
    (hi' : t'.columns[i]? = some c') : Journal c' (es ++ [.of b ((r.lookup c.name).getD .null)])
  /-- A table that has the column gets another one, which may be longer. -/
  | beside {c c' x : Column} {es : List Entry} {b : Bindings} {cell : Cell Ref} {t t' : Table} {i : Nat}
    (h : Journal c es) (hi : t.columns[i]? = some c) (ht : t.addColumnWithDefault b x cell = .ok t')
    (hi' : t'.columns[i]? = some c') :
    Journal c' (es ++ List.replicate (t'.size - t.size).toNat (.of b cell))
  /-- A table, which may have more rows, gets the column. -/
  | join {c c' : Column} {es : List Entry} {b : Bindings} {cell : Cell Ref} {t t' : Table}
    (h : Journal c es) (ht : t.addColumnWithDefault b c cell = .ok t')
    (hlast : t'.columns.getLast? = some c') :
    Journal c' (es ++ List.replicate (t'.size - c.size).toNat (.of b cell))
  | schema {c : Column} {es : List Entry} (h : Journal c es) : Journal (c.duplicate true) []
  | copy {c : Column} {es : List Entry} (h : Journal c es) : Journal (c.duplicate false) es

end Column

namespace DataColumn
variable {b : Bindings} {cell : Cell Ref} {n : Nat} {d : DataColumn} {c : Column} {es : List Entry}
  {id : VertexId} {row : Nat} {m : Std.HashMap VertexId Nat}

/-- The cells of a column are those of the entries, and its index knows their marks. -/
structure Keeps (d : DataColumn) (es : List Entry) : Prop where
  hasIndex : d.hasIndex = true
  cells : d.cells.toList = es.map (·.cell)
  marked : d.Marked (es.map (·.mark))

theorem keeps_new (name : String) : (new name true).Keeps [] := ⟨rfl, rfl, marked_new name true⟩

namespace Keeps

theorem push (h : d.Keeps es) (b : Bindings) (cell : Cell Ref) :
    (d.push b cell).Keeps (es ++ [.of b cell]) := by
  refine ⟨(Option.isSome_map ..).trans h.hasIndex, ?_, ?_⟩
  · show (d.cells.push cell).toList = _
    rw [Array.toList_push, h.cells, List.map_append]
    rfl
  · rw [List.map_append]
    exact h.marked.push b cell

theorem pad (h : d.Keeps es) (hc : (Column.data d).pad b cell n = .ok c) :
    ∃ d', c = .data d' ∧ d'.Keeps (es ++ List.replicate n (.of b cell)) := by
  induction n generalizing d es with
  | zero =>
    cases hc
    exact ⟨d, rfl, by rwa [List.replicate_zero, List.append_nil]⟩
  | succ n ih =>
    obtain ⟨d', rfl, h'⟩ := ih (h.push b cell) hc
    refine ⟨d', rfl, ?_⟩
    rwa [List.replicate_succ, List.append_cons]

theorem index_eq_some_iff (h : d.Keeps es) (hm : d.index = some m) :
    m[id]? = some row ↔ Entry.First es id row := by
  have hrow (i : Nat) (hi : i < (es.map (·.mark)).length) :
      decide ((es.map (·.mark))[i] = some id) = true ↔ (es[i]?).bind (·.mark) = some id := by
    rw [List.length_map] at hi
    rw [decide_eq_true_iff, List.getElem_map, List.getElem?_eq_getElem hi, Option.bind_some]
  rw [h.marked.index m hm, List.findIdx?_eq_some_iff_getElem]
  constructor
  · rintro ⟨hlt, hhere, hbefore⟩
    exact ⟨(hrow row hlt).1 hhere, fun i hi => mt (hrow i (Nat.lt_trans hi hlt)).2 (hbefore i hi)⟩
  · rintro ⟨hhere, hbefore⟩
    obtain ⟨e, he, -⟩ := Option.bind_eq_some_iff.1 hhere
    have hlt : row < (es.map (·.mark)).length := by
      rw [List.length_map]
      exact (List.getElem?_eq_some_iff.1 he).1
    exact ⟨hlt, (hrow row hlt).2 hhere, fun i hi => mt (hrow i (Nat.lt_trans hi hlt)).1 (hbefore i hi)⟩

theorem cellOf_eq (hm : d.index = some m) :
    d.cellOf id = .ok ((m[id]?).bind fun row => d.cells[row]?) := by
  unfold cellOf
  rw [hm]

theorem cellOf_of_index (h : d.Keeps es) (hm : d.index = some m) (hrow : m[id]? = some row) :
    ∃ hlt : row < d.cells.size, d.cellOf id = .ok (some d.cells[row]) := by
  obtain ⟨e, he, -⟩ := Option.bind_eq_some_iff.1 ((h.index_eq_some_iff hm).1 hrow).here
  have hlt : row < d.cells.size := by
    rw [← Array.length_toList, h.cells, List.length_map]
    exact (List.getElem?_eq_some_iff.1 he).1
  exact ⟨hlt, by rw [cellOf_eq hm, hrow, Option.bind_some, Array.getElem?_eq_getElem hlt]⟩

theorem cellOf_of_not_mem (hm : d.index = some m) (hid : id ∉ m) : d.cellOf id = .ok none := by
  rw [cellOf_eq hm, Std.HashMap.getElem?_eq_none hid, Option.bind_none]

theorem mem_index_iff (h : d.Keeps es) (hm : d.index = some m) :
    id ∈ m ↔ ∃ e ∈ es, e.mark = some id := by
  rw [← Std.HashMap.contains_iff_mem, h.marked.contains_index_iff hm, List.mem_map]

end Keeps

end DataColumn

namespace Column
variable {c : Column} {es : List Entry}

theorem rel_of_getElem? {R : Column → Column → Prop} {cs ds : List Column} (h : List.Forall₂ R cs ds)
    {i : Nat} {c d : Column} (hc : cs[i]? = some c) (hd : ds[i]? = some d) : R c d := by
  obtain ⟨hi, rfl⟩ := List.getElem?_eq_some_iff.1 hc
  obtain ⟨hi', rfl⟩ := List.getElem?_eq_some_iff.1 hd
  exact h.get hi hi'

/-- However a cell comes to a column, it is kept with its mark. -/
theorem Journal.keeps (h : c.Journal es) : ∃ d, c = .data d ∧ d.Keeps es := by
  induction h with
  | new name => exact ⟨_, rfl, DataColumn.keeps_new name⟩
  | push _ hc ih =>
    obtain ⟨d, rfl, hd⟩ := ih
    cases hc
    exact ⟨_, rfl, hd.push _ _⟩
  | pad _ hc ih =>
    obtain ⟨d, rfl, hd⟩ := ih
    exact hd.pad hc
  | row _ hi ht hi' ih =>
    obtain ⟨d, rfl, hd⟩ := ih
    obtain ⟨-, ds, hds, rfl⟩ := Table.exists_of_addRow ht
    cases rel_of_getElem? hds hi hi'
    exact ⟨_, rfl, hd.push _ _⟩
  | beside _ hi ht hi' ih =>
    obtain ⟨d, rfl, hd⟩ := ih
    obtain ⟨-, ⟨hnil, -⟩ | ⟨-, -, c', ds, hc, hds, rfl⟩⟩ := Table.addColumnWithDefault_eq_ok ht
    · rw [hnil] at hi
      cases hi
    · have hlt := (List.getElem?_eq_some_iff.1 hi).1
      rw [List.getElem?_append_left (hds.length_eq ▸ hlt)] at hi'
      exact hd.pad (rel_of_getElem? hds hi hi')
  | @join c c' es b cell t t' _ ht hlast ih =>
    obtain ⟨d, rfl, hd⟩ := ih
    obtain ⟨-, ⟨hnil, rfl⟩ | ⟨-, -, x, ds, hx, -, rfl⟩⟩ := Table.addColumnWithDefault_eq_ok ht
    · -- a table without columns has the size of the column afterwards, and nothing is padded
      cases hlast
      refine hd.pad ?_
      rw [Int.sub_self]
      rfl
    · rw [List.getLast?_concat] at hlast
      cases hlast
      exact hd.pad hx
  | schema _ ih =>
    obtain ⟨d, rfl, hd⟩ := ih
    refine ⟨_, rfl, ?_⟩
    rw [hd.hasIndex]
    exact DataColumn.keeps_new d.name
  | copy _ ih => exact ih

/-- Whatever a column with an index was given, one by one, as padding, in rows or since it was copied, it
has these cells, and the index has just the vertices that a value among them belonged to when it came. The
row that it gives for a vertex is the first to which such a value came. It is a row of the column, whose
cell is what a look-up gives; for any other vertex a look-up gives nothing. -/
theorem index_gives_first_rows (h : c.Journal es) :
    ∃ d m, c = .data d ∧ d.index = some m ∧ d.cells.toList = es.map (·.cell) ∧
      (∀ id, id ∈ m ↔ ∃ e ∈ es, e.mark = some id) ∧
      (∀ id row, m[id]? = some row ↔ Entry.First es id row) ∧
      (∀ id row, m[id]? = some row →
        ∃ hlt : row < d.cells.size, d.cellOf id = .ok (some d.cells[row])) ∧
      ∀ id, id ∉ m → d.cellOf id = .ok none := by
  obtain ⟨d, rfl, hd⟩ := h.keeps
  obtain ⟨m, hm⟩ := Option.isSome_iff_exists.1 hd.hasIndex
  exact ⟨d, m, rfl, hm, hd.cells, fun _ => hd.mem_index_iff hm, fun _ _ => hd.index_eq_some_iff hm,
    fun _ _ => hd.cellOf_of_index hm, fun _ => DataColumn.Keeps.cellOf_of_not_mem hm⟩

def lateName : Value := .node (.built 0) (.ofKind "Name") []

/-- The name is added, then bound, and then comes in a row and as padding. -/
def lateEntries : List Entry :=
  let b := Bindings.empty.bind ⟨7⟩ lateName.tag
  [.of .empty (.value lateName), .of b (.value lateName), .of b (.value lateName)]

theorem index_gives_first_rows_lateEntries :
    ∃ d m, (Column.data d).Journal lateEntries ∧ d.index = some m ∧ m[(⟨7⟩ : VertexId)]? = some 1 ∧
      ∃ hlt : 1 < d.cells.size, d.cellOf ⟨7⟩ = .ok (some d.cells[1]) := by
  let b := Bindings.empty.bind ⟨7⟩ lateName.tag
  let pushed := Column.data ((DataColumn.new "c" true).push .empty (.value lateName))
  have hpushed : pushed.Journal [.of .empty (.value lateName)] := .push (.new "c") rfl
  obtain ⟨c, hjournal⟩ : ∃ c : Column, c.Journal lateEntries :=
    ⟨_, .pad (n := 1) (.row (t := .ofColumn "t" pushed) (r := [("c", .value lateName)]) (i := 0)
      hpushed rfl rfl rfl) rfl⟩
  obtain ⟨d, m, rfl, hm, -, -, hfirst, hcell, -⟩ := index_gives_first_rows hjournal
  have hbefore : DataColumn.vertexIn .empty (.value lateName) = none := Std.HashMap.getElem?_empty
  have hafter : DataColumn.vertexIn b (.value lateName) = some ⟨7⟩ := by
    show (Bindings.empty.vertexOf.insertIfNew lateName.tag ⟨7⟩)[lateName.tag]? = _
    rw [Std.HashMap.getElem?_insertIfNew]
    simp [Bindings.empty]
  have hrow : m[(⟨7⟩ : VertexId)]? = some 1 := by
    refine (hfirst ⟨7⟩ 1).2 ⟨hafter, fun i hi => ?_⟩
    obtain rfl : i = 0 := Nat.lt_one_iff.1 hi
    show DataColumn.vertexIn .empty (.value lateName) ≠ _
    rw [hbefore]
    nofun
  exact ⟨d, m, hjournal, hm, hrow, hcell _ _ hrow⟩

end Column

end CodeGraph
