import CodeGraph.Proofs.Views

/-!
# Tables of pipes

A view in pipes is written line by line, with every text as it is. So a text that breaks a line adds a
line, and a text with a bar adds a bar (`TableView.lined_iff`, `TableView.delimited_iff`), and a row of
such texts can be taken for two rows (`TableView.bars_and_breaks_mislead`). From a bar to the next, cells
without bars are read as they were written, so that views of other rows are written otherwise, even if
their cells break lines (`TableView.markdown_shows_rows`).
-/

namespace CodeGraph

theorem append_cons_inj_of_not_mem {α : Type} {x : α} {xs ys s t : List α} (hx : x ∉ xs) (hy : x ∉ ys)
    (h : xs ++ x :: s = ys ++ x :: t) : xs = ys ∧ s = t := by
  induction xs generalizing ys with
  | nil =>
    cases ys with
    | nil => exact ⟨rfl, (List.cons.inj h).2⟩
    | cons y ys => exact absurd (List.mem_cons.2 (Or.inl (List.cons.inj h).1)) hy
  | cons z xs ih =>
    cases ys with
    | nil => exact absurd (List.mem_cons.2 (Or.inl (List.cons.inj h).1.symm)) hx
    | cons y ys =>
      obtain ⟨rfl, hrest⟩ := List.cons.inj h
      obtain ⟨rfl, hst⟩ := ih (fun hm => hx (List.mem_cons_of_mem _ hm))
        (fun hm => hy (List.mem_cons_of_mem _ hm)) hrest
      exact ⟨rfl, hst⟩

theorem not_mem_of_mem_splitOn {x : Char} {cs piece : List Char} (h : piece ∈ cs.splitOn x) :
    x ∉ piece := by
  induction cs generalizing piece with
  | nil =>
    rw [List.splitOn_nil, List.mem_singleton] at h
    rw [h]
    exact List.not_mem_nil
  | cons c cs ih =>
    rw [List.splitOn_cons_eq_if_modifyHead] at h
    split at h
    · rcases List.mem_cons.1 h with rfl | h
      · exact List.not_mem_nil
      · exact ih h
    · next hc =>
      cases hcs : cs.splitOn x with
      | nil => exact (List.splitOn_ne_nil x cs hcs).elim
      | cons first rest =>
        rw [hcs] at h ih
        rcases List.mem_cons.1 h with rfl | h
        · refine List.not_mem_cons_of_ne_of_not_mem (fun he => hc ?_) (ih (List.mem_cons_self ..))
          rw [he]
          exact beq_self_eq_true c
        · exact ih (List.mem_cons_of_mem _ h)

theorem splitOn_flatMap_lines {ls : List (List Char)} (h : ∀ l ∈ ls, '\n' ∉ l) :
    (ls.flatMap (· ++ ['\n'])).splitOn '\n' = ls ++ [[]] := by
  induction ls with
  | nil => rfl
  | cons l ls ih =>
    obtain ⟨hl, hls⟩ := List.forall_mem_cons.1 h
    rw [List.flatMap_cons, List.append_assoc, List.singleton_append,
      List.splitOn_append_cons_self_of_not_mem hl, ih hls, List.cons_append]

namespace TableView
variable {v v' : TableView} {cells row row' : List String} {rows rows' : List (List String)}

def texts (v : TableView) : List String := v.headers ++ v.rows.flatten

/-- The line of the headers, the separator, and a line for each row. -/
def lines (v : TableView) : List String :=
  pipeLine v.headers :: pipeLine (v.headers.map fun _ => "---") :: v.rows.map pipeLine

/-- A line break comes first and then these lines with a break after each of them, and there is no other
line break. -/
def Lined (v : TableView) : Prop :=
  v.markdown.toList.splitOn '\n' = [] :: v.lines.map String.toList ++ [[]]

/-- Each line has one bar more than there are headers. -/
def Delimited (v : TableView) : Prop :=
  ∀ line ∈ v.lines, line.toList.count '|' = v.headers.length + 1

theorem toList_markdown (v : TableView) :
    v.markdown.toList = '\n' :: (v.lines.map String.toList).flatMap (· ++ ['\n']) := by
  have hbody : (String.join (v.rows.map fun row => pipeLine row ++ "\n")).toList =
      ((v.rows.map pipeLine).map String.toList).flatMap (· ++ ['\n']) := by
    rw [String.toList_join, List.flatMap_map, List.flatMap_map, List.flatMap_map]
    simp only [String.toList_append]
    rfl
  unfold markdown lines
  simp only [String.toList_append, hbody, List.map_cons, List.flatMap_cons, List.append_assoc]
  rfl

theorem forall_texts {p : String → Prop} :
    (∀ s ∈ v.texts, p s) ↔ (∀ s ∈ v.headers, p s) ∧ ∀ row ∈ v.rows, ∀ s ∈ row, p s := by
  unfold texts
  rw [List.forall_mem_append, List.forall_mem_flatten]

/-! ### Line breaks and bars -/

theorem break_mem_pipeLine : '\n' ∈ (pipeLine cells).toList ↔ ∃ s ∈ cells, '\n' ∈ s.toList := by
  rw [toList_pipeLine]
  simp [barred]

/-- A view is written in its lines exactly if no text breaks a line. -/
theorem lined_iff (v : TableView) : v.Lined ↔ ∀ s ∈ v.texts, '\n' ∉ s.toList := by
  have hlines : (∀ l ∈ v.lines.map String.toList, '\n' ∉ l) ↔ ∀ s ∈ v.texts, '\n' ∉ s.toList := by
    rw [List.forall_mem_map, forall_texts, lines, List.forall_mem_cons, List.forall_mem_cons,
      List.forall_mem_map]
    simp [break_mem_pipeLine]
  rw [← hlines]
  constructor
  · intro h l hl
    have hpiece : l ∈ v.markdown.toList.splitOn '\n' := by
      rw [h]
      exact List.mem_append_left _ (List.mem_cons_of_mem _ hl)
    exact not_mem_of_mem_splitOn hpiece
  · intro h
    unfold Lined
    rw [toList_markdown, List.splitOn_cons_eq_if_modifyHead, if_pos (beq_self_eq_true _),
      splitOn_flatMap_lines h, List.cons_append]

theorem count_pipeLine (cells : List String) : (pipeLine cells).toList.count '|' =
    (cells.flatMap String.toList).count '|' + (cells.length + 1) := by
  rw [toList_pipeLine, List.count_cons_self]
  induction cells with
  | nil => rfl
  | cons cell cells ih =>
    have hcell : (barred cell).count '|' = cell.toList.count '|' + 1 := by simp [barred]
    rw [List.flatMap_cons, List.flatMap_cons, List.count_append, List.count_append, hcell, List.length_cons]
    omega

theorem count_pipeLine_iff :
    (pipeLine cells).toList.count '|' = cells.length + 1 ↔ ∀ s ∈ cells, '|' ∉ s.toList := by
  rw [count_pipeLine, Nat.add_eq_right, List.count_eq_zero, List.mem_flatMap]
  simp only [not_exists, not_and]

/-- The lines of a rectangular view are delimited exactly if no text has a bar. -/
theorem delimited_iff (h : v.Rectangular) : v.Delimited ↔ ∀ s ∈ v.texts, '|' ∉ s.toList := by
  have hrows : (∀ row ∈ v.rows, (pipeLine row).toList.count '|' = v.headers.length + 1) ↔
      ∀ row ∈ v.rows, ∀ s ∈ row, '|' ∉ s.toList :=
    forall₂_congr fun row hrow => by rw [← h row hrow, count_pipeLine_iff]
  have hdashes : (pipeLine (v.headers.map fun _ => "---")).toList.count '|' = v.headers.length + 1 := by
    have hlen : (v.headers.map fun _ => "---").length = v.headers.length := List.length_map _
    rw [← hlen, count_pipeLine_iff]
    simp
  unfold Delimited lines
  rw [List.forall_mem_cons, List.forall_mem_cons, List.forall_mem_map, hrows, count_pipeLine_iff,
    forall_texts]
  exact and_congr_right fun _ => and_iff_right hdashes

/-! ### Reading from bar to bar -/

theorem cells_inj {s t : List Char} (hlen : row.length = row'.length) (h : ∀ c ∈ row, '|' ∉ c.toList)
    (h' : ∀ c ∈ row', '|' ∉ c.toList)
    (heq : row.flatMap barred ++ s = row'.flatMap barred ++ t) : row = row' ∧ s = t := by
  induction row generalizing row' with
  | nil =>
    obtain rfl := List.length_eq_zero_iff.1 hlen.symm
    exact ⟨rfl, heq⟩
  | cons c row ih =>
    cases row' with
    | nil => cases hlen
    | cons c' row' =>
      obtain ⟨hc, hrow⟩ := List.forall_mem_cons.1 h
      obtain ⟨hc', hrow'⟩ := List.forall_mem_cons.1 h'
      have hspaced : ∀ {c : String}, '|' ∉ c.toList → '|' ∉ ' ' :: c.toList ++ [' '] := by simp
      -- each cell ends before the first bar
      obtain ⟨hcell, hrest⟩ := append_cons_inj_of_not_mem (hspaced hc) (hspaced hc')
        (by simpa [barred] using heq)
      obtain ⟨rfl, hst⟩ := ih (Nat.succ.inj hlen) hrow hrow' hrest
      have hsame := List.append_cancel_right (List.cons.inj hcell).2
      exact ⟨by rw [String.toList_inj.1 hsame], hst⟩

theorem rows_inj {n : Nat} (hlen : ∀ row ∈ rows, row.length = n) (hlen' : ∀ row ∈ rows', row.length = n)
    (h : ∀ row ∈ rows, ∀ c ∈ row, '|' ∉ c.toList) (h' : ∀ row ∈ rows', ∀ c ∈ row, '|' ∉ c.toList)
    (heq : (rows.flatMap fun row => (pipeLine row).toList ++ ['\n']) =
      rows'.flatMap fun row => (pipeLine row).toList ++ ['\n']) : rows = rows' := by
  induction rows generalizing rows' with
  | nil =>
    cases rows' with
    | nil => rfl
    | cons row' rows' => simp [toList_pipeLine] at heq
  | cons row rows ih =>
    cases rows' with
    | nil => simp [toList_pipeLine] at heq
    | cons row' rows' =>
      rw [List.forall_mem_cons] at hlen hlen' h h'
      rw [List.flatMap_cons, List.flatMap_cons, List.append_assoc, List.append_assoc, toList_pipeLine,
        toList_pipeLine] at heq
      obtain ⟨rfl, hrest⟩ := cells_inj (hlen.1.trans hlen'.1.symm) h.1 h'.1 (List.cons.inj heq).2
      rw [ih hlen.2 hlen'.2 h.2 h'.2 (List.cons.inj hrest).2]

/-- A rectangular view is written in a line for the headers, a separator and a line for each row exactly
if no text breaks a line, and each of these lines has one bar more than there are headers exactly if no
text has a bar. Views of the same headers and of different rows are written differently, if no cell has a
bar. -/
theorem markdown_shows_rows (h : v.Rectangular) :
    (v.Lined ↔ ∀ s ∈ v.texts, '\n' ∉ s.toList) ∧ (v.Delimited ↔ ∀ s ∈ v.texts, '|' ∉ s.toList) ∧
      ∀ v' : TableView, v'.Rectangular → v'.headers = v.headers →
        (∀ row ∈ v.rows, ∀ c ∈ row, '|' ∉ c.toList) → (∀ row ∈ v'.rows, ∀ c ∈ row, '|' ∉ c.toList) →
        v'.rows ≠ v.rows → v'.render .markdown ≠ v.render .markdown := by
  refine ⟨v.lined_iff, delimited_iff h, fun v' h' hheaders hbars hbars' hne heq => hne ?_⟩
  have hlen : ∀ row ∈ v'.rows, row.length = v.headers.length := fun row hrow => by
    rw [h' row hrow, hheaders]
  have htext : v'.markdown.toList = v.markdown.toList := congrArg String.toList heq
  rw [toList_markdown, toList_markdown, lines, lines, hheaders, List.map_cons, List.map_cons,
    List.map_cons, List.map_cons, List.flatMap_cons, List.flatMap_cons, List.flatMap_cons,
    List.flatMap_cons, List.cons.injEq, List.append_cancel_left_eq, List.append_cancel_left_eq,
    List.map_map, List.map_map, List.flatMap_map, List.flatMap_map] at htext
  exact rows_inj hlen h hbars' hbars htext.2

def brokenCell : TableView := ⟨["a", "b"], [["x\ny", ""]]⟩

def plainCells : TableView := ⟨["a", "b"], [["x", "y"]]⟩

theorem markdown_shows_rows_brokenCell :
    brokenCell.Rectangular ∧ ¬ brokenCell.Lined ∧ brokenCell.Delimited ∧
      plainCells.render .markdown ≠ brokenCell.render .markdown := by
  have hrect : brokenCell.Rectangular := by decide
  obtain ⟨hlined, hdelimited, hother⟩ := markdown_shows_rows hrect
  refine ⟨hrect, mt hlined.1 (by decide), hdelimited.2 (by decide), ?_⟩
  exact hother plainCells (by decide) rfl (by decide) (by decide) (by decide)

def oneRow : TableView := ⟨["a"], [["x |\n| y"]]⟩

def twoRows : TableView := ⟨["a"], [["x"], ["y"]]⟩

/-- A cell with bars and a line break is written as two rows would be. -/
theorem bars_and_breaks_mislead :
    oneRow.Rectangular ∧ twoRows.Rectangular ∧ oneRow.headers ≠ [] ∧ twoRows.headers = oneRow.headers ∧
      twoRows.rows ≠ oneRow.rows ∧ twoRows.render .markdown = oneRow.render .markdown ∧
      ¬ oneRow.Lined ∧ ¬ oneRow.Delimited := by
  have hrect : oneRow.Rectangular := by decide
  refine ⟨hrect, by decide, by decide, rfl, by decide, by decide, ?_, ?_⟩
  · exact mt oneRow.lined_iff.1 (by decide)
  · exact mt (delimited_iff hrect).1 (by decide)

end TableView

end CodeGraph
