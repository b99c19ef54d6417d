import CodeGraph.Proofs.Projection

/-!
# Tables as sheets of rows

A table keeps columns and is read by rows. A `Sheet` is what a reader sees: names, and under them the
cells of one row after the other. `Table.Reads` says that a table is read as a sheet, cell by cell, and
`Table.sheet` is the sheet of a table whose columns hold cells (`Table.Gridded`). A row more and a column
more, padding on either side included, are one equation each on sheets (`Gridded.exists_addRow`,
`Gridded.sheet_addColumn`), so that any sequence of both is read off the sheet (`Gridded.runAll`).
-/

namespace CodeGraph

/-- Names, and the cells of each row under them. -/
structure Sheet where
  names : List String
  rows : List (List (Cell Ref))

namespace Sheet

/-- A row more. A name that the row does not have gets an empty cell. -/
def addRow (s : Sheet) (r : Row Ref) : Sheet :=
  { s with rows := s.rows ++ [s.names.map fun n => (r.lookup n).getD .null] }

/-- A column more. Whatever is shorter, the rows or the new column, is filled up with a default cell. -/
def addColumn (s : Sheet) (name : String) (cells : List (Cell Ref)) (default : Cell Ref) : Sheet where
  names := s.names ++ [name]
  rows := (List.range (max s.rows.length cells.length)).map fun i =>
    (s.rows[i]?).getD (s.names.map fun _ => default) ++ [(cells[i]?).getD default]

theorem length_rows_addColumn (s : Sheet) (name : String) (cells : List (Cell Ref)) (default : Cell Ref) :
    (s.addColumn name cells default).rows.length = max s.rows.length cells.length := by
  unfold addColumn
  rw [List.length_map, List.length_range]

end Sheet

namespace Column
variable {b : Bindings} {cell : Cell Ref} {n : Nat} {c c' : Column}

def cellList : Column → List (Cell Ref)
  | data c => c.cells.toList
  | predicate .. => []
  | any _ cells => cells.toList

theorem cells_eq (h : c.isPredicate = false) : c.cells = .ok c.cellList.toArray := by
  cases c with
  | predicate => cases h
  | data | any => rfl

theorem size_eq_length (h : c.isPredicate = false) : c.size = c.cellList.length := by
  cases c with
  | predicate => cases h
  | data | any => rfl

theorem cellList_of_push (hc : c.push b cell = .ok c') : c'.cellList = c.cellList ++ [cell] := by
  cases c with
  | predicate => cases hc
  | data | any =>
    cases hc
    exact Array.toList_push

theorem cellList_of_pad (hc : c.pad b cell n = .ok c') :
    c'.cellList = c.cellList ++ List.replicate n cell := by
  induction n generalizing c with
  | zero =>
    cases hc
    exact (List.append_nil _).symm
  | succ n ih =>
    rw [pad] at hc
    cases hpush : c.push b cell with
    | error e =>
      rw [hpush] at hc
      cases hc
    | ok d =>
      rw [hpush, ok_bind] at hc
      rw [ih hc, cellList_of_push hpush, List.append_assoc, List.replicate_succ, List.singleton_append]

theorem getElem?_cellList_of_pad (hc : c.pad b cell n = .ok c') {i : Nat} (hi : i < c.cellList.length + n) :
    c'.cellList[i]? = some ((c.cellList[i]?).getD cell) := by
  rw [cellList_of_pad hc]
  by_cases hlt : i < c.cellList.length
  · rw [List.getElem?_append_left hlt, List.getElem?_eq_getElem hlt]
    rfl
  · rw [List.getElem?_append_right (Nat.le_of_not_lt hlt), List.getElem?_replicate_of_lt (by omega),
      List.getElem?_eq_none (Nat.le_of_not_lt hlt)]
    rfl

theorem cell_eq_ok (h : c.isPredicate = false) {i : Nat} (hi : i < c.cellList.length) :
    c.cell i = .ok ((c.cellList[i]?).getD .null) := by
  unfold cell
  rw [cells_eq h, ok_bind, List.getElem?_toArray, List.getElem?_eq_getElem hi]
  rfl

end Column

namespace Sheet

/-- A new column is taken if it has cells and no other column has its name. -/
def insert (s : Sheet) (c : Column) (default : Cell Ref) : Sheet :=
  if c.name ∉ s.names ∧ c.isPredicate = false then s.addColumn c.name c.cellList default else s

def edit (s : Sheet) : Edit → Sheet
  | .addRow _ r => s.addRow r
  | .addColumn _ c => s.insert c .null
  | .addColumnWithDefault _ c default => s.insert c default
  | _ => s

theorem names_edit_eq_nil {s : Sheet} {e : Edit} (h : (s.edit e).names = []) : s.names = [] := by
  have hinsert {c : Column} {default : Cell Ref} (h : (s.insert c default).names = []) : s.names = [] := by
    unfold insert at h
    split at h
    · exact absurd h (List.append_ne_nil_of_right_ne_nil _ (List.cons_ne_nil _ _))
    · exact h
  cases e with
  | new | ofColumn | removeColumn | rename | duplicate | addRow => exact h
  | addColumn | addColumnWithDefault => exact hinsert h

end Sheet

def Edit.Adds : Edit → Prop
  | addRow .. | addColumn .. | addColumnWithDefault .. => True
  | _ => False

namespace Table
variable {α : Type} {x : α} {b : Bindings} {t t' : Table} {c : Column} {default : Cell Ref}
  {r : Row Ref} {i : Nat}

/-- The table is read as a sheet. -/
structure Reads (t : Table) (s : Sheet) : Prop where
  headers : t.headers = s.names
  rowCount : t.rowCount = s.rows.length
  rowCells : ∀ i, t.rowCells i =
    match s.rows[i]? with
    | some cells => .ok cells
    | none => .error (.notFound "row" (toString i ++ " of table " ++ t.name))
  row : ∀ i, t.row i = (t.rowCells i).map s.names.zip

def line (t : Table) (i : Nat) : List (Cell Ref) := t.columns.map fun c => (c.cellList[i]?).getD .null

def sheet (t : Table) : Sheet := ⟨t.headers, (List.range t.rowCount).map t.line⟩

theorem length_rows_sheet (t : Table) : t.sheet.rows.length = t.rowCount := by
  unfold sheet
  rw [List.length_map, List.length_range]

theorem getElem?_rows_sheet (t : Table) (i : Nat) :
    t.sheet.rows[i]? = if i < t.rowCount then some (t.line i) else none := by
  unfold sheet
  rw [List.getElem?_map]
  split
  · next hi =>
    rw [List.getElem?_range hi]
    rfl
  · next hi =>
    rw [List.getElem?_eq_none (by rwa [List.length_range, ← Nat.not_lt])]
    rfl

/-- The table has the column, perhaps with more cells at its end. -/
def Carries (t : Table) (c : Column) : Prop := ∃ c', t.column? c.name = some c' ∧ c.cellList <+: c'.cellList

/-- Adds columns one after the other, each with a default cell of its own. -/
def addColumns (t : Table) (adds : List (Bindings × Column × Cell Ref)) : Except Error Table :=
  adds.foldlM (fun t a => t.addColumnWithDefault a.1 a.2.1 a.2.2) t

/-- A table beside what some columns more have made of it. -/
structure Augmented (t : Table) (cs : List Column) (t' : Table) : Prop where
  headers : t'.headers = t.headers ++ cs.map Column.name
  rowCount : t'.rowCount = cs.foldl (fun n c => max n c.cellList.length) t.rowCount
  old : ∀ c, t.Carries c → t'.Carries c
  new : ∀ c ∈ cs, t'.Carries c
  reads : ∃ s, t'.Reads s

theorem column?_of_mem (hn : t.headers.Nodup) (hc : c ∈ t.columns) : t.column? c.name = some c := by
  unfold column?
  unfold headers at hn
  generalize t.columns = cs at hn hc
  induction cs with
  | nil => cases hc
  | cons d cs ih =>
    rw [List.map_cons, List.nodup_cons] at hn
    rcases List.mem_cons.1 hc with rfl | hc
    · exact List.find?_cons_of_pos (beq_self_eq_true _)
    · have hne : d.name ≠ c.name := fun he => hn.1 (List.mem_map.2 ⟨c, hc, he.symm⟩)
      rw [List.find?_cons_of_neg (by simpa using hne)]
      exact ih hn.2 hc

/-- A well-formed table whose columns hold cells. -/
structure Gridded (t : Table) : Prop where
  wellFormed : t.WellFormed
  plain : t.hasPredicate = false

namespace Gridded

theorem isPredicate (h : t.Gridded) (hc : c ∈ t.columns) : c.isPredicate = false :=
  hasPredicate_eq_false_iff.1 h.plain c hc

theorem size_eq (h : t.Gridded) : t.size = t.rowCount := by
  unfold rowCount
  rcases h.wellFormed.kind with ⟨-, hsize⟩ | ⟨hne, hall, -⟩
  · exact (Int.toNat_of_nonneg hsize).symm
  · obtain ⟨c, hc⟩ := List.exists_mem_of_ne_nil _ hne
    cases (hall c hc).symm.trans (h.isPredicate hc)

theorem length_cellList (h : t.Gridded) (hc : c ∈ t.columns) : c.cellList.length = t.rowCount := by
  have hsize := h.wellFormed.even c hc
  rw [Column.size_eq_length (h.isPredicate hc), h.size_eq] at hsize
  exact Int.ofNat.inj hsize

theorem rowCells_eq (h : t.Gridded) (i : Nat) :
    t.rowCells i = if i < t.rowCount then .ok (t.line i)
      else .error (.notFound "row" (toString i ++ " of table " ++ t.name)) := by
  unfold rowCells checkRow
  split
  · next hi =>
    exact mapM_eq_ok (List.forall₂_same.2 fun c hc =>
      Column.cell_eq_ok (h.isPredicate hc) (h.length_cellList hc ▸ hi))
  · rfl

theorem row_eq (h : t.Gridded) (i : Nat) : t.row i = (t.rowCells i).map t.headers.zip := by
  rw [h.rowCells_eq]
  split
  · next hi =>
    have hcells : List.Forall₂ (fun c x => c.name = x.1 ∧ c.cell i = .ok x.2) t.columns
        (t.columns.map fun c => (c.name, (c.cellList[i]?).getD .null)) :=
      List.forall₂_map_right_iff.2 (List.forall₂_same.2 fun c hc =>
        ⟨rfl, Column.cell_eq_ok (h.isPredicate hc) (h.length_cellList hc ▸ hi)⟩)
    exact (row_eq_ok hi hcells).trans (congrArg Except.ok List.zip_map'.symm)
  · next hi =>
    unfold row checkRow
    rw [if_neg hi]
    rfl

theorem reads (h : t.Gridded) : t.Reads t.sheet where
  headers := rfl
  rowCount := (length_rows_sheet t).symm
  rowCells i := by
    rw [h.rowCells_eq, getElem?_rows_sheet]
    split <;> rfl
  row := h.row_eq

/-! ### A row more -/

theorem exists_addRow (h : t.Gridded) (b : Bindings) (r : Row Ref) :
    ∃ t', t.addRow b r = .ok t' ∧ t'.Gridded ∧ t'.sheet = t.sheet.addRow r := by
  obtain ⟨ds, hds⟩ := exists_pushed h.plain b r
  have hok := addRow_eq_ok hds
  have hgrown := hds.imp fun _ _ => Column.grown_of_push
  refine ⟨_, hok, ⟨h.wellFormed.addRow hok, hasPredicate_eq_false_iff.2
    (isPredicate_of_grown hgrown (hasPredicate_eq_false_iff.1 h.plain))⟩, ?_⟩
  have hcount : (t.size + 1).toNat = t.rowCount + 1 := by
    rw [h.size_eq]
    rfl
  have hold : ∀ i < t.rowCount, ds.map (fun d => (d.cellList[i]?).getD .null) = t.line i := by
    intro i hi
    refine map_eq_map_of_forall₂ (forall₂_of_mem hds.flip fun d c hc hd => ?_)
    rw [Column.cellList_of_push hd, List.getElem?_append_left (h.length_cellList hc ▸ hi)]
  have hnew : ds.map (fun d => (d.cellList[t.rowCount]?).getD .null) =
      t.headers.map fun n => (r.lookup n).getD .null := by
    unfold headers
    rw [List.map_map]
    refine map_eq_map_of_forall₂ (forall₂_of_mem hds.flip fun d c hc hd => ?_)
    rw [Column.cellList_of_push hd, ← h.length_cellList hc, List.getElem?_concat_length]
    rfl
  unfold sheet Sheet.addRow
  refine congrArg₂ Sheet.mk (headers_of_grown hgrown) ?_
  show (List.range (t.size + 1).toNat).map _ = _
  rw [hcount, List.range_succ, List.map_append, List.map_singleton]
  refine congrArg₂ (· ++ ·) (List.map_congr_left fun i hi => hold i (List.mem_range.1 hi)) ?_
  exact congrArg (· :: []) hnew

/-! ### A column more -/

theorem exists_addColumn (h : t.Gridded) (hn : c.name ∉ t.headers) (hp : c.isPredicate = false)
    (b : Bindings) (default : Cell Ref) : ∃ t', t.addColumnWithDefault b c default = .ok t' := by
  have hpred : ¬(t.size < max t.size c.size ∧ t.hasPredicate = true) := by
    rintro ⟨-, hpred⟩
    cases h.plain.symm.trans hpred
  unfold addColumnWithDefault
  rw [hasColumn_eq_decide, if_neg (by simpa using hn)]
  split
  · exact ⟨_, rfl⟩
  · obtain ⟨ds, hds⟩ := exists_padded b default hpred
    obtain ⟨c', hc, -⟩ := Column.exists_pad hp b default (t.lacking c).toNat
    have hcols : t.columns.mapM (Column.pad b default (max t.size c.size - t.size).toNat) = .ok ds :=
      mapM_eq_ok_of_forall₂ hds
    dsimp only
    rw [if_neg hpred, hcols, show c.pad b default (max t.size c.size - c.size).toNat = .ok c' from hc]
    exact ⟨_, rfl⟩

theorem addColumn (h : t.Gridded) (hok : t.addColumnWithDefault b c default = .ok t')
    (hp : c.isPredicate = false) : t'.Gridded := by
  refine ⟨h.wellFormed.addColumnWithDefault hok, hasPredicate_eq_false_iff.2 ?_⟩
  obtain ⟨-, ⟨-, rfl⟩ | ⟨-, -, c', ds, hc, hds, rfl⟩⟩ := addColumnWithDefault_eq_ok hok
  · exact List.forall_mem_singleton.2 hp
  · exact List.forall_mem_append.2
      ⟨isPredicate_of_grown (hds.imp fun _ _ => Column.grown_of_pad) (hasPredicate_eq_false_iff.1 h.plain),
        List.forall_mem_singleton.2 ((Column.grown_of_pad hc).isPredicate.trans hp)⟩

theorem map_cell_of_pad {n : Nat} {ds : List Column} (h : t.Gridded)
    (hds : List.Forall₂ (fun x d => x.pad b default n = .ok d) t.columns ds) (hi : i < t.rowCount + n) :
    ds.map (fun d => (d.cellList[i]?).getD .null) =
      (t.sheet.rows[i]?).getD (t.headers.map fun _ => default) := by
  have hcells : ds.map (fun d => (d.cellList[i]?).getD .null) =
      t.columns.map fun x => (x.cellList[i]?).getD default := by
    refine map_eq_map_of_forall₂ (forall₂_of_mem hds.flip fun d x hx hd => ?_)
    rw [Column.getElem?_cellList_of_pad hd (by rwa [h.length_cellList hx])]
    rfl
  rw [hcells, getElem?_rows_sheet]
  split
  · next hlt =>
    refine List.map_congr_left fun x hx => ?_
    rw [List.getElem?_eq_getElem (h.length_cellList hx ▸ hlt)]
    rfl
  · next hge =>
    unfold headers
    rw [Option.getD_none, List.map_map]
    refine List.map_congr_left fun x hx => ?_
    rw [List.getElem?_eq_none (h.length_cellList hx ▸ Nat.le_of_not_lt hge)]
    rfl

theorem sheet_ofColumn (name : String) (hp : c.isPredicate = false) (default : Cell Ref) :
    (ofColumn name c).sheet = (⟨[], []⟩ : Sheet).addColumn c.name c.cellList default := by
  unfold sheet Sheet.addColumn
  refine congrArg₂ Sheet.mk rfl ?_
  show (List.range c.size.toNat).map _ = _
  rw [Column.size_eq_length hp, Int.toNat_natCast, List.length_nil, Nat.zero_max]
  refine List.map_congr_left fun i hi => ?_
  show [(c.cellList[i]?).getD .null] = [(c.cellList[i]?).getD default]
  rw [List.getElem?_eq_getElem (List.mem_range.1 hi)]
  rfl

theorem sheet_addColumn (h : t.Gridded) (hz : t.columns = [] → t.rowCount = 0)
    (hok : t.addColumnWithDefault b c default = .ok t') (hp : c.isPredicate = false) :
    t'.sheet = t.sheet.addColumn c.name c.cellList default := by
  obtain ⟨-, ⟨hnil, rfl⟩ | ⟨-, -, c', ds, hc, hds, rfl⟩⟩ := addColumnWithDefault_eq_ok hok
  · have hsheet : t.sheet = ⟨[], []⟩ :=
      congrArg₂ Sheet.mk (congrArg (List.map Column.name) hnil)
        (List.length_eq_zero_iff.1 ((length_rows_sheet t).trans (hz hnil)))
    rw [hsheet]
    exact sheet_ofColumn t.name hp default
  have hsize := Column.size_eq_length hp
  -- the table and the new column are both filled up to the longer of them
  have hcount : (max t.size c.size).toNat = max t.rowCount c.cellList.length := by
    rw [h.size_eq, hsize]
    omega
  have hold : t.rowCount + (t.missing c).toNat = max t.rowCount c.cellList.length := by
    unfold missing
    rw [h.size_eq, hsize]
    omega
  have hnew : c.cellList.length + (t.lacking c).toNat = max t.rowCount c.cellList.length := by
    unfold lacking
    rw [h.size_eq, hsize]
    omega
  unfold Sheet.addColumn
  rw [length_rows_sheet]
  refine congrArg₂ Sheet.mk ?_ ?_
  · show (ds ++ [c']).map Column.name = _
    rw [List.map_append, headers_of_grown (hds.imp fun _ _ => Column.grown_of_pad), List.map_singleton,
      (Column.grown_of_pad hc).name]
    rfl
  · show (List.range (max t.size c.size).toNat).map _ = _
    rw [hcount]
    refine List.map_congr_left fun i hi => ?_
    replace hi := List.mem_range.1 hi
    show (ds ++ [c']).map _ = _
    rw [List.map_append, h.map_cell_of_pad hds (hold.symm ▸ hi), List.map_singleton,
      Column.getElem?_cellList_of_pad hc (hnew.symm ▸ hi)]
    rfl

theorem exists_addColumn_iff (h : t.Gridded) (hne : t.columns ≠ []) :
    (∃ t', t.addColumnWithDefault b c default = .ok t') ↔ c.name ∉ t.headers ∧ c.isPredicate = false := by
  refine ⟨?_, fun ⟨hn, hp⟩ => h.exists_addColumn hn hp b default⟩
  rintro ⟨t', hok⟩
  obtain ⟨hn, ⟨hnil, -⟩ | ⟨-, -, c', ds, hc, -⟩⟩ := addColumnWithDefault_eq_ok hok
  · exact absurd hnil hne
  · exact ⟨hn, not_isPredicate_of_padded (h.size_eq ▸ Int.natCast_nonneg _) hc⟩

/-! ### Rows and columns one after the other -/

theorem columns_eq_nil_iff : t.columns = [] ↔ t.sheet.names = [] := List.map_eq_nil_iff.symm

theorem insert (h : t.Gridded) (hne : t.columns ≠ []) (b : Bindings) (c : Column) (default : Cell Ref)
    {out : Except Error α × Table}
    (hout : out = t.settle ((t.addColumnWithDefault b c default).map fun t' => (x, t'))) :
    out.2.Gridded ∧ out.2.sheet = t.sheet.insert c default := by
  unfold Sheet.insert
  show _ ∧ _ = ite (c.name ∉ t.headers ∧ c.isPredicate = false) _ _
  cases hok : t.addColumnWithDefault b c default with
  | error e =>
    have hnot : ¬(c.name ∉ t.headers ∧ c.isPredicate = false) := fun htaken => by
      obtain ⟨t', hok'⟩ := (h.exists_addColumn_iff hne).2 htaken
      cases hok.symm.trans hok'
    rw [if_neg hnot, hout, hok]
    exact ⟨h, rfl⟩
  | ok t' =>
    have htaken := (h.exists_addColumn_iff hne).1 ⟨t', hok⟩
    rw [if_pos htaken, hout, hok]
    exact ⟨h.addColumn hok htaken.2, h.sheet_addColumn (absurd · hne) hok htaken.2⟩

theorem run_edit (h : t.Gridded) (hne : t.columns ≠ []) {e : Edit} (he : e.Adds) :
    (e.run.run.run t).2.Gridded ∧ (e.run.run.run t).2.sheet = t.sheet.edit e := by
  have hrun := Edit.run_eq_settle h.wellFormed.distinct e
  cases e with
  | new | ofColumn | removeColumn | rename | duplicate => cases he
  | addColumn b c => exact h.insert hne b c .null hrun
  | addColumnWithDefault b c default => exact h.insert hne b c default hrun
  | addRow b r =>
    obtain ⟨t', hok, h', hsheet⟩ := h.exists_addRow b r
    rw [hrun, Edit.apply, hok]
    exact ⟨h', hsheet⟩

/-- Whatever rows and columns are added, taken or not, is read row by row. -/
theorem runAll (h : t.Gridded) (hne : t.columns ≠ []) {edits : List Edit} (he : ∀ e ∈ edits, e.Adds) :
    (Edit.runAll edits t).Gridded ∧ (Edit.runAll edits t).sheet = edits.foldl Sheet.edit t.sheet := by
  unfold Edit.runAll
  induction edits generalizing t with
  | nil => exact ⟨h, rfl⟩
  | cons e edits ih =>
    obtain ⟨hadds, he⟩ := List.forall_mem_cons.1 he
    obtain ⟨h', hsheet⟩ := h.run_edit hne hadds
    rw [List.foldl_cons, List.foldl_cons, ← hsheet]
    refine ih h' (fun hnil => hne ?_) he
    rw [columns_eq_nil_iff, hsheet] at hnil
    exact columns_eq_nil_iff.2 (Sheet.names_edit_eq_nil hnil)

theorem carries_addColumn (h : t.Gridded) (hok : t.addColumnWithDefault b c default = .ok t')
    (hp : c.isPredicate = false) : t'.Carries c ∧ ∀ x, t.Carries x → t'.Carries x := by
  have hcolumn? {x : Column} (hx : x ∈ t'.columns) : t'.column? x.name = some x :=
    column?_of_mem (h.addColumn hok hp).wellFormed.distinct hx
  obtain ⟨-, ⟨hnil, rfl⟩ | ⟨-, -, c', ds, hc, hds, rfl⟩⟩ := addColumnWithDefault_eq_ok hok
  · refine ⟨⟨c, hcolumn? (List.mem_singleton_self c), List.prefix_refl _⟩, ?_⟩
    rintro x ⟨c₀, hc₀, -⟩
    unfold column? at hc₀
    rw [hnil] at hc₀
    cases hc₀
  · have hpad {n : Nat} {x d : Column} (hd : x.pad b default n = .ok d) : x.cellList <+: d.cellList :=
      Column.cellList_of_pad hd ▸ List.prefix_append _ _
    refine ⟨⟨c', ?_, hpad hc⟩, ?_⟩
    · rw [← (Column.grown_of_pad hc).name]
      exact hcolumn? (List.mem_append_right _ (List.mem_singleton_self c'))
    · rintro x ⟨x', hx', hprefix⟩
      obtain ⟨d, hd, hx'd⟩ := exists_mem_of_forall₂ hds.flip x' (List.mem_of_find?_eq_some hx')
      refine ⟨d, ?_, hprefix.trans (hpad hx'd)⟩
      rw [← name_of_column? hx', ← (Column.grown_of_pad hx'd).name]
      exact hcolumn? (List.mem_append_left _ hd)

theorem addColumns {adds : List (Bindings × Column × Cell Ref)} (h : t.Gridded)
    (hz : t.columns = [] → t.rowCount = 0) (hn : (t.headers ++ adds.map (·.2.1.name)).Nodup)
    (hp : ∀ a ∈ adds, a.2.1.isPredicate = false) :
    ∃ t', t.addColumns adds = .ok t' ∧ t.Augmented (adds.map (·.2.1)) t' := by
  unfold Table.addColumns
  induction adds generalizing t with
  | nil =>
    exact ⟨t, rfl, (List.append_nil _).symm, rfl, fun _ hx => hx,
      fun _ hx => absurd hx List.not_mem_nil, _, h.reads⟩
  | cons a adds ih =>
    obtain ⟨b, c, default⟩ := a
    obtain ⟨hpc, hp⟩ := List.forall_mem_cons.1 hp
    have hnew : c.name ∉ t.headers := fun hin =>
      (List.nodup_append.1 hn).2.2 c.name hin c.name (List.mem_cons_self ..) rfl
    obtain ⟨t₁, hok⟩ := h.exists_addColumn hnew hpc b default
    have hsheet := h.sheet_addColumn hz hok hpc
    have hnames : t₁.headers = t.headers ++ [c.name] := congrArg Sheet.names hsheet
    have hcount : t₁.rowCount = max t.rowCount c.cellList.length := by
      rw [← length_rows_sheet, hsheet, Sheet.length_rows_addColumn, length_rows_sheet]
    obtain ⟨hcarries, hkeeps⟩ := h.carries_addColumn hok hpc
    have hne : t₁.columns ≠ [] := by
      rw [Ne, columns_eq_nil_iff, hsheet]
      exact List.append_ne_nil_of_right_ne_nil _ (List.cons_ne_nil _ _)
    have hn₁ : (t₁.headers ++ adds.map (·.2.1.name)).Nodup := by
      rw [hnames, List.append_assoc]
      exact hn
    obtain ⟨t', hadds, hmore⟩ := ih (h.addColumn hok hpc) (absurd · hne) hn₁ hp
    refine ⟨t', ?_, ?_, ?_, fun x hx => hmore.old x (hkeeps x hx),
      List.forall_mem_cons.2 ⟨hmore.old c hcarries, hmore.new⟩, hmore.reads⟩
    · rw [List.foldlM_cons, hok]
      exact hadds
    · rw [hmore.headers, hnames, List.append_assoc]
      rfl
    · rw [hmore.rowCount, hcount]
      rfl

end Gridded

theorem gridded_new (name : String) : (new name).Gridded := ⟨wellFormed_new name, rfl⟩

/-- A table that was built, has a column and has no predicate column is read by rows, and so is what
comes of it. A row puts the cells that it has for the columns, or empty ones, under the others. A column
is taken if it has cells and a new name, and whatever is shorter is filled up. Rows and columns can be added
one after the other in any order. Columns of new names, added to the table or to an empty one, stand in it
with their own cells first, and the longest of them gives the number of rows. -/
theorem updates_read_by_rows (hb : t.Built) (hne : t.columns ≠ []) (hp : t.hasPredicate = false) :
    ∃ s, t.Reads s ∧
      (∀ b r, ∃ t', t.addRow b r = .ok t' ∧ t'.Reads (s.addRow r)) ∧
      (∀ b c default,
        ((∃ t', t.addColumnWithDefault b c default = .ok t') ↔
          c.name ∉ t.headers ∧ c.isPredicate = false) ∧
        ∀ t', t.addColumnWithDefault b c default = .ok t' →
          t'.Reads (s.addColumn c.name c.cellList default)) ∧
      (∀ edits, (∀ e ∈ edits, e.Adds) → (Edit.runAll edits t).Reads (edits.foldl Sheet.edit s)) ∧
      ∀ u name, u = t ∨ u = new name →
        ∀ adds : List (Bindings × Column × Cell Ref), (u.headers ++ adds.map (·.2.1.name)).Nodup →
          (∀ a ∈ adds, a.2.1.isPredicate = false) →
          ∃ t', u.addColumns adds = .ok t' ∧ u.Augmented (adds.map (·.2.1)) t' := by
  have h : t.Gridded := ⟨hb.wellFormed, hp⟩
  refine ⟨t.sheet, h.reads, fun b r => ?_, fun b c default => ⟨h.exists_addColumn_iff hne, ?_⟩, ?_, ?_⟩
  · obtain ⟨t', hok, h', hsheet⟩ := h.exists_addRow b r
    exact ⟨t', hok, hsheet ▸ h'.reads⟩
  · intro t' hok
    have hpc := ((h.exists_addColumn_iff hne).1 ⟨t', hok⟩).2
    rw [← h.sheet_addColumn (absurd · hne) hok hpc]
    exact (h.addColumn hok hpc).reads
  · intro edits he
    obtain ⟨h', hsheet⟩ := h.runAll hne he
    exact hsheet ▸ h'.reads
  · rintro u name (rfl | rfl) adds hn hpa
    · exact h.addColumns (absurd · hne) hn hpa
    · exact (gridded_new name).addColumns (fun _ => rfl) hn hpa

/-- The last row of a table of two rows that has got a column of three. -/
theorem updates_read_by_rows_lines :
    Query.linesTable.Built ∧ Query.linesTable.columns ≠ [] ∧ Query.linesTable.hasPredicate = false ∧
      ∃ t', Query.linesTable.addColumnWithDefault .empty
          (.any "note" #[.text "x", .text "y", .text "z"]) (.text "-") = .ok t' ∧
        t'.rowCount = 3 ∧ t'.rowCells 2 = .ok [.text "-", .text "-", .text "z"] := by
  have hbuilt : Query.linesTable.Built := ⟨_, _, rfl⟩
  have hne : Query.linesTable.columns ≠ [] := List.cons_ne_nil _ _
  obtain ⟨s, hs, -, hcolumn, -⟩ := updates_read_by_rows hbuilt hne rfl
  obtain ⟨hiff, hreads⟩ :=
    hcolumn .empty (.any "note" #[.text "x", .text "y", .text "z"]) (.text "-")
  obtain ⟨t', hok⟩ := hiff.2 ⟨by decide, rfl⟩
  have hnames : s.names = ["file", "line"] := hs.headers.symm
  have hrows : s.rows.length = 2 := hs.rowCount.symm
  have hlast : s.rows[2]? = none := List.getElem?_eq_none (Nat.le_of_eq hrows)
  have hrow : (s.addColumn "note" [.text "x", .text "y", .text "z"] (.text "-")).rows[2]? =
      some [.text "-", .text "-", .text "z"] := by
    rw [Sheet.addColumn, hrows, hnames, List.getElem?_map]
    show some ((s.rows[2]?).getD [.text "-", .text "-"] ++ [.text "z"]) = _
    rw [hlast]
    rfl
  have h : t'.Reads (s.addColumn "note" [.text "x", .text "y", .text "z"] (.text "-")) := hreads t' hok
  refine ⟨hbuilt, hne, rfl, t', hok, ?_, ?_⟩
  · rw [h.rowCount, Sheet.length_rows_addColumn, hrows]
    rfl
  · rw [h.rowCells, hrow]

end Table

end CodeGraph
