import CodeGraph.Proofs.TableView
import CodeGraph.Proofs.TwoRuns
import CodeGraph.Query.Flow

/-!
# A column of empty cells

A table is widened when a column of empty cells stands between its columns (`Table.Widened`). Rows that
differ only in the cell of that column keep it so, and its rows are those of the narrow table with an
empty cell put in. The results of a flow with a barrier widen those of the flow without
(`FlowResult.Widened`).
-/

namespace CodeGraph

/-- The column has as many cells as there are rows. -/
def Column.Full (count : Nat) (c : Column) : Prop := ∃ cells, c.cells = .ok cells ∧ cells.size = count

namespace Column
variable {c : Column} {count : Nat}

theorem full_iff (b : Bindings) : c.Full count ↔ ∃ ss, c.Shows b ss ∧ ss.length = count := by
  constructor
  · rintro ⟨cells, hcells, hsize⟩
    exact ⟨_, ⟨cells, hcells, rfl⟩, by rw [List.length_map, Array.length_toList, hsize]⟩
  · rintro ⟨ss, ⟨cells, hcells, rfl⟩, hlen⟩
    rw [List.length_map, Array.length_toList] at hlen
    exact ⟨cells, hcells, hlen⟩

theorem Full.cell (h : c.Full count) {i : Nat} (hi : i < count) : ∃ cell, c.cell i = .ok cell := by
  obtain ⟨ss, hs, hlen⟩ := (full_iff .empty).1 h
  obtain ⟨cell, hcell, -⟩ := hs.cell (List.getElem?_eq_getElem (hlen.symm ▸ hi))
  exact ⟨cell, hcell⟩

theorem Full.push (h : c.Full count) (b : Bindings) (cell : Cell Ref) :
    ∃ c', c.push b cell = .ok c' ∧ c'.name = c.name ∧ c'.Full (count + 1) := by
  obtain ⟨ss, hs, hlen⟩ := (full_iff b).1 h
  obtain ⟨c', hpush, hname, hs'⟩ := hs.push cell
  exact ⟨c', hpush, hname, (full_iff b).2 ⟨_, hs', by rw [List.length_append, hlen]; rfl⟩⟩

end Column

namespace Table
variable {b : Bindings} {t t' : Table} {c : Column} {n : String} {place : Nat}

theorem addColumn_of_size (hs : c.size = t.size) :
    t.addColumn b c =
      if c.name ∈ t.headers then .error (.duplicateName "column" c.name)
      else .ok { t with columns := t.columns ++ [c] } := by
  unfold addColumn addColumnWithDefault
  rw [hasColumn_eq_decide]
  by_cases hin : c.name ∈ t.headers
  · rw [if_pos hin, if_pos (decide_eq_true hin)]
  · rw [if_neg hin, if_neg (by rw [decide_eq_false hin]; exact Bool.false_ne_true)]
    cases hcols : t.columns with
    | nil =>
      rw [List.isEmpty_nil, if_pos rfl, hs]
      rfl
    | cons c₀ cs =>
      have hpad : ∀ cs : List Column, cs.mapM (Column.pad b .null 0) = Except.ok cs := fun cs => by
        rw [show Column.pad b .null 0 = fun c => pure c from rfl, List.mapM_pure, List.map_id']
        rfl
      rw [if_neg (by simp), hs, Int.max_self]
      dsimp only
      rw [if_neg fun h => absurd h.1 (Int.lt_irrefl _), Int.sub_self, Int.toNat_zero, hpad]
      rfl

theorem addColumn_of_nil {name : String} {cs : List Column} (hs : List String) (m : String)
    (hc : c.size = 0) (hcs : cs.map Column.name = hs) (hm : c.name = m) :
    (Table.mk name 0 cs).addColumn b c =
      if m ∈ hs then .error (.duplicateName "column" m) else .ok ⟨name, 0, cs ++ [c]⟩ := by
  subst hcs hm
  exact addColumn_of_size hc

/-- The second table is the first with a column of empty cells, under a new name, at a place between
its columns. -/
structure Widened (n : String) (place : Nat) (t t' : Table) : Prop where
  name : t'.name = t.name
  size : t'.size = t.size
  counted : t.size = t.rowCount
  columns : ∃ front back, front.length = place ∧ t.columns = front ++ back ∧
    t'.columns = front ++ .any n (.replicate t.rowCount .null) :: back
  full : ∀ c ∈ t.columns, c.Full t.rowCount
  new : n ∉ t.headers

theorem length_rows {rows : List (Row Ref)} (h : t.rows = .ok rows) : rows.length = t.rowCount :=
  (length_of_mapM_eq_ok h).trans List.length_range

theorem row_eq_ok {i : Nat} {row : Row Ref} (hi : i < t.rowCount)
    (h : List.Forall₂ (fun c x => c.name = x.1 ∧ c.cell i = .ok x.2) t.columns row) :
    t.row i = .ok row := by
  have hread : List.Forall₂ (fun (c : Column) (x : String × Cell Ref) =>
      (do return (c.name, ← c.cell i) : Except Error _) = .ok (id x)) t.columns row :=
    h.imp fun c x hx => by
      rw [hx.1, hx.2]
      rfl
  unfold Table.row checkRow
  rw [if_pos hi, mapM_eq_ok hread, List.map_id]
  rfl

namespace Widened
variable {row row' : Row Ref}

/-- The column takes its cell of two rows, which is the same. -/
structure Takes (b : Bindings) (row row' : Row Ref) (count : Nat) (c d : Column) : Prop where
  narrow : c.push b ((row.lookup c.name).getD .null) = .ok d
  wide : c.push b ((row'.lookup c.name).getD .null) = .ok d
  name : c.name = d.name
  full : d.Full (count + 1)

theorem exists_takes (h : Widened n place t t') (b : Bindings)
    (hrow : ∀ m, m ≠ n → row'.lookup m = row.lookup m) :
    ∀ c ∈ t.columns, ∃ d, Takes b row row' t.rowCount c d := by
  intro c hc
  obtain ⟨d, hd, hname, hfull⟩ := (h.full c hc).push b ((row.lookup c.name).getD .null)
  refine ⟨d, hd, ?_, hname.symm, hfull⟩
  rw [hrow _ fun he => h.new (he ▸ List.mem_map_of_mem hc)]
  exact hd

theorem addRow (h : Widened n place t t') (b : Bindings)
    (hrow : ∀ m, m ≠ n → row'.lookup m = row.lookup m) (hn : (row'.lookup n).getD .null = .null) :
    ∃ u u', t.addRow b row = .ok u ∧ t'.addRow b row' = .ok u' ∧ Widened n place u u' ∧
      u.headers = t.headers := by
  obtain ⟨front, back, hplace, hcols, hcols'⟩ := h.columns
  have htakes := h.exists_takes b hrow
  rw [hcols] at htakes
  obtain ⟨front', hfront⟩ := exists_forall₂ fun c hc => htakes c (List.mem_append_left _ hc)
  obtain ⟨back', hback⟩ := exists_forall₂ fun c hc => htakes c (List.mem_append_right _ hc)
  have hcount : (t.size + 1).toNat = t.rowCount + 1 := by
    have := h.counted
    omega
  have hfill : (Column.any n (.replicate t.rowCount .null)).push b ((row'.lookup n).getD .null) =
      .ok (.any n (.replicate (t.rowCount + 1) .null)) := by
    rw [hn, Array.replicate_succ]
    rfl
  have hall : List.Forall₂ (Takes b row row' t.rowCount) t.columns (front' ++ back') := by
    rw [hcols]
    exact List.rel_append hfront hback
  have hnarrow : List.Forall₂ (fun c d => c.push b ((row.lookup c.name).getD .null) = .ok d)
      t.columns (front' ++ back') := hall.imp fun _ _ hd => hd.narrow
  have hwide : List.Forall₂ (fun c d => c.push b ((row'.lookup c.name).getD .null) = .ok d)
      t'.columns (front' ++ .any n (.replicate (t.rowCount + 1) .null) :: back') := by
    rw [hcols']
    exact List.rel_append (hfront.imp fun _ _ hd => hd.wide)
      (.cons hfill (hback.imp fun _ _ hd => hd.wide))
  have hheaders : (front' ++ back').map Column.name = t.headers :=
    (map_eq_map_of_forall₂ (hall.imp fun _ _ hd => hd.name)).symm
  refine ⟨_, _, addRow_eq_ok hnarrow, addRow_eq_ok hwide,
    ⟨h.name, congrArg (· + 1) h.size, ?_, ⟨front', back', ?_, rfl, ?_⟩, fun d hd => ?_, ?_⟩, hheaders⟩
  · show t.size + 1 = (((t.size + 1).toNat : Nat) : Int)
    rw [hcount, h.counted]
    rfl
  · rw [← hfront.length_eq, hplace]
  · show _ = front' ++ .any n (.replicate (t.size + 1).toNat .null) :: back'
    rw [hcount]
  · show d.Full (t.size + 1).toNat
    rw [hcount]
    exact forall_mem_of_forall₂ hall.flip (fun _ _ hd => hd.full) d hd
  · show n ∉ (front' ++ back').map Column.name
    rw [hheaders]
    exact h.new

theorem headers_eq (h : Widened n place t t') :
    t'.headers = t.headers.take place ++ n :: t.headers.drop place := by
  obtain ⟨front, back, hplace, hcols, hcols'⟩ := h.columns
  have hlen : (front.map Column.name).length = place := by rw [List.length_map, hplace]
  unfold headers
  rw [hcols', hcols, List.map_append, List.map_append, List.take_left' hlen, List.drop_left' hlen]
  rfl

/-- The rows of the wide table are those of the narrow one with an empty cell put in. -/
theorem rows (h : Widened n place t t') :
    ∃ rows, t.rows = .ok rows ∧
      t'.rows = .ok (rows.map fun r => r.take place ++ (n, .null) :: r.drop place) := by
  obtain ⟨front, back, hplace, hcols, hcols'⟩ := h.columns
  have hrow : ∀ i ∈ List.range t.rowCount, ∃ r : Row Ref, t.row i = .ok (id r) ∧
      t'.row i = .ok (r.take place ++ (n, .null) :: r.drop place) := by
    intro i hi
    have hlt := List.mem_range.1 hi
    have hlt' : i < t'.rowCount := by
      unfold rowCount
      rwa [h.size]
    have hcell : ∀ c ∈ t.columns, ∃ x : String × Cell Ref, c.name = x.1 ∧ c.cell i = .ok x.2 := by
      intro c hc
      obtain ⟨cell, hcell⟩ := (h.full c hc).cell hlt
      exact ⟨(c.name, cell), rfl, hcell⟩
    rw [hcols] at hcell
    obtain ⟨rs, hrs⟩ := exists_forall₂ fun c hc => hcell c (List.mem_append_left _ hc)
    obtain ⟨ss, hss⟩ := exists_forall₂ fun c hc => hcell c (List.mem_append_right _ hc)
    have hempty : (Column.any n (.replicate t.rowCount .null)).cell i = .ok .null := by
      have hnull : (Array.replicate t.rowCount (.null : Cell Ref))[i]? = some .null := by
        rw [Array.getElem?_replicate, if_pos hlt]
      unfold Column.cell Column.cells
      rw [ok_bind, hnull]
      rfl
    have hlen : rs.length = place := by rw [← hplace, hrs.length_eq]
    refine ⟨rs ++ ss, row_eq_ok hlt ?_, ?_⟩
    · rw [hcols]
      exact List.rel_append hrs hss
    · rw [List.take_left' hlen, List.drop_left' hlen]
      refine row_eq_ok hlt' ?_
      rw [hcols']
      exact List.rel_append hrs (.cons ⟨rfl, hempty⟩ hss)
  obtain ⟨rows, hrows⟩ := exists_forall₂ hrow
  refine ⟨rows, ?_, ?_⟩
  · unfold Table.rows
    rw [mapM_eq_ok (hrows.imp fun _ _ hr => hr.1), List.map_id]
  · unfold Table.rows rowCount
    rw [h.size]
    exact mapM_eq_ok (hrows.imp fun _ _ hr => hr.2)

end Widened

end Table

namespace FlowResult
variable {n source sink name : String} {al : FlowAliases} {r r' : FlowResult}

/-- The results of a flow without a barrier under these aliases, and with one of a new alias. -/
structure Widened (al : FlowAliases) (n : String) (r r' : FlowResult) : Prop where
  narrow : r.aliases = al
  wide : r'.aliases = { al with barrier := some n }
  barrier : al.barrier = none
  headers : r.table.headers = [al.source, al.sink, al.name]
  table : r.table.Widened n 2 r'.table

theorem rowOf_barrier (h : al.barrier = none) (x : Finding) :
    rowOf { al with barrier := some n } x = rowOf al x ++ [(n, .null)] := by
  unfold rowOf
  rw [h]
  rfl

theorem lookup_rowOf_new (h : al.barrier = none) (hn : n ∉ [al.source, al.sink, al.name])
    (x : Finding) : (rowOf al x).lookup n = none := by
  refine List.lookup_eq_none_iff.2 fun e he => bne_iff_ne.2 fun heq => hn ?_
  unfold rowOf at he
  rw [h] at he
  subst heq
  exact List.mem_map_of_mem (f := Prod.fst) he

theorem Widened.exists_addRow (h : r.Widened al n r') (b : Bindings) (x : Finding) :
    ∃ u u', r.table.addRow b (rowOf r.aliases x) = .ok u ∧
      r'.table.addRow b (rowOf r'.aliases x) = .ok u' ∧
      Widened al n { r with table := u } { r' with table := u' } := by
  have hnew := lookup_rowOf_new h.barrier (h.headers ▸ h.table.new) x
  have hsame : ∀ m, m ≠ n → (rowOf r'.aliases x).lookup m = (rowOf r.aliases x).lookup m := by
    intro m hm
    rw [h.wide, h.narrow, rowOf_barrier h.barrier, List.lookup_append, List.lookup_cons,
      beq_false_of_ne hm]
    exact Option.or_none
  have hempty : ((rowOf r'.aliases x).lookup n).getD .null = .null := by
    rw [h.wide, rowOf_barrier h.barrier, List.lookup_append, hnew, List.lookup_cons,
      beq_self_eq_true]
    rfl
  obtain ⟨u, u', hu, hu', hw, hheaders⟩ := h.table.addRow b hsame hempty
  exact ⟨u, u', hu, hu', h.narrow, h.wide, h.barrier, hheaders.trans h.headers, hw⟩

theorem agree_new_widened (b : Bindings) (hn : n ∉ [source, sink, name]) :
    Agree (Widened ⟨source, sink, none, name⟩ n) (new b ⟨source, sink, none, name⟩)
      (new b ⟨source, sink, some n, name⟩) := by
  rw [List.mem_cons, List.mem_cons, List.mem_singleton, not_or, not_or] at hn
  have hbar : n ∉ [source, sink] := by simp [hn.1, hn.2.1]
  have hname : name ∈ [source, sink, n] ↔ name ∈ [source, sink] := by simp [Ne.symm hn.2.2]
  unfold new Table.new
  dsimp only
  rw [Table.addColumn_of_nil [] source rfl rfl rfl, if_neg List.not_mem_nil, List.nil_append, ok_bind,
    ok_bind, Table.addColumn_of_nil [source] sink rfl rfl rfl]
  split
  · rfl
  · rw [ok_bind, ok_bind, pure_bind, List.singleton_append,
      Table.addColumn_of_nil [source, sink] name rfl rfl rfl,
      Table.addColumn_of_nil [source, sink] n rfl rfl rfl, if_neg hbar, ok_bind, List.cons_append,
      List.cons_append, List.nil_append, Table.addColumn_of_nil [source, sink, n] name rfl rfl rfl]
    -- the name is taken in both tables or in neither, since the new column has another
    by_cases hm : name ∈ [source, sink]
    · rw [if_pos hm, if_pos (hname.2 hm)]
      rfl
    · rw [if_neg hm, if_neg (mt hname.1 hm)]
      refine ⟨rfl, rfl, rfl, rfl, rfl, rfl, rfl, ⟨[_, _], [_], rfl, rfl, rfl⟩, fun c hc => ?_, ?_⟩
      · simp only [List.mem_cons, List.not_mem_nil, or_false] at hc
        rcases hc with rfl | rfl | rfl <;> exact ⟨#[], rfl, rfl⟩
      · show n ∉ [source, sink, name]
        simp [hn]

end FlowResult

end CodeGraph
