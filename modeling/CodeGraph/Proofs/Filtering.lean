import CodeGraph.Proofs.ColumnIndex
import CodeGraph.Proofs.OrderOfUse
import CodeGraph.Proofs.RowView
import CodeGraph.Proofs.Transforms

/-!
# What a filter keeps

A filter copies the columns of a table without their cells and puts back the rows that its predicate
accepts, one by one. What it makes is told by the table and these rows (`Table.refill`): the columns are
those that would come of the cells of these rows alone, and nothing is left of what the cells and the
indexes were before. Asking about one row makes no difference to the answer about another
(`Context.Asks`), so that two filters come to one that asks both questions.
-/

namespace CodeGraph

/-! ### Questions -/

namespace Context
variable {α : Type} {c c' : Context} {v : Value}

/-- A question: it changes at most the order in which entries were used, and that order makes no
difference to the answer. -/
structure Asks (m : StateM Context α) : Prop where
  onlyUses : OnlyUses m
  alike : ∀ c c', c.Alike c' → (m.run c').1 = (m.run c).1

theorem alike_nodeOf? (v : Value) (ha : c.Alike c') :
    ((nodeOf? (.value v)).run c').1 = ((nodeOf? (.value v)).run c).1 := by
  have hb := ha.bindings
  cases hv : c.bindings.vertex? v with
  | some id =>
    have h := (wp_nodeOf?_bound hv).1
    have h' := (wp_nodeOf?_bound (c := c') (by rw [hb]; exact hv)).1
    exact h'.trans ((ha.nodeAt? id).trans h.symm)
  | none =>
    have hnone {d : Context} (hd : d.bindings.vertex? v = none) : ((nodeOf? (.value v)).run d).1 = none := by
      have h : wp (nodeOf? (.value v)) (fun found _ => found = none) d := by
        unfold nodeOf? nodeOf lookup vertexOf
        rw [wp_bind, wp_run, wpE_bind, wpE_bind, wpE_bind, wpE_get, hd]
        rfl
      exact h
    rw [hnone hv, hnone (by rw [hb]; exact hv)]

theorem looks_asks : Looks @Asks where
  pure x := ⟨onlyUses_pure x, fun _ _ _ => rfl⟩
  bind := by
    intro α β m f h hf
    refine ⟨h.onlyUses.bind fun x => (hf x).onlyUses, fun c c' ha => ?_⟩
    have hleft : (m.run c).2.Alike (m.run c').2 := ((h.onlyUses c).symm.trans ha).trans (h.onlyUses c')
    show ((f (m.run c').1).run (m.run c').2).1 = ((f (m.run c).1).run (m.run c).2).1
    rw [h.alike c c' ha, (hf _).alike _ _ hleft]
  view f := ⟨looks_onlyUses.view f, fun _ _ ha => congrArg f ha.bindings⟩
  node v := ⟨onlyUses_nodeOf? v, fun _ _ ha => alike_nodeOf? v ha⟩

end Context

namespace FilterPredicate
variable {p q : FilterPredicate} {c c' : Context} {r : Row Ref}

def accepts (p : FilterPredicate) (column : String) (c : Context) (r : Row Ref) : Bool :=
  ((p.test column r).run c).1

theorem asks_test (p : FilterPredicate) (column : String) (r : Row Ref) : Context.Asks (p.test column r) := by
  cases p with
  | value a =>
    unfold test
    cases (r.lookup column).bind Cell.value? with
    | none => exact Context.looks_asks.pure false
    | some v => exact Context.looks_asks.test a v
  | row a => exact Context.looks_asks.view fun b => a (b.viewRow r)
  | flow a =>
    unfold test
    cases (r.lookup column).bind Cell.path? with
    | none => exact Context.looks_asks.pure false
    | some path => exact Context.looks_asks.view fun b => a (Tree.mapAll b.identity path)

/-- What is left of a context when a predicate has been asked: all but the order of use, and that too if
it asks for no node. -/
def Leaves (p : FilterPredicate) (c c' : Context) : Prop := c.Alike c' ∧ (p.Blind → c' = c)

theorem leaves_refl (p : FilterPredicate) (c : Context) : p.Leaves c c := ⟨.refl c, fun _ => rfl⟩

theorem lookup_viewRow (b : Bindings) (r : Row Ref) (name : String) :
    (b.viewRow r).lookup name = (r.lookup name).map (Cell.map b.identity) := by
  unfold Bindings.viewRow
  induction r with
  | nil => rfl
  | cons x r ih =>
    rw [List.map_cons, List.lookup_cons, List.lookup_cons, ih]
    cases name == x.1 <;> rfl

theorem Blind.exists_test (hp : p.Blind) (column : String) :
    ∃ f : Row Identity → Bool, ∀ r c, wp (p.test column r)
      (fun yes c' => yes = f (c.bindings.viewRow r) ∧ c' = c) c := by
  cases p with
  | row a => exact ⟨a, fun r c => ⟨rfl, rfl⟩⟩
  | flow a =>
    refine ⟨fun s => ((s.lookup column).bind Cell.path?).any a, fun r c => ?_⟩
    dsimp only
    rw [lookup_viewRow]
    unfold test
    cases r.lookup column with
    | none => exact ⟨rfl, rfl⟩
    | some cell => cases cell <;> exact ⟨rfl, rfl⟩
  | value a =>
    -- such a predicate means the same for every node
    let n : GraphNode := .file ⟨⟨0⟩, fileLabel, .empty⟩ ""
    refine ⟨fun s => ((s.lookup column).bind Cell.value?).any (a.holds n), fun r c => ?_⟩
    dsimp only
    rw [lookup_viewRow]
    unfold test
    cases r.lookup column with
    | none => exact ⟨rfl, rfl⟩
    | some cell =>
      cases cell with
      | null | text | path => exact ⟨rfl, rfl⟩
      | value v => exact ValuePredicate.Blind.wp_test hp n v c

theorem wp_test (h : p.Leaves c c') (column : String) (r : Row Ref) :
    wp (p.test column r) (fun yes c'' => yes = p.accepts column c r ∧ p.Leaves c c'') c' := by
  have hasks := p.asks_test column r
  refine ⟨hasks.alike c c' h.1, h.1.trans (hasks.onlyUses c'), fun hp => ?_⟩
  obtain ⟨f, hf⟩ := hp.exists_test column
  exact (hf r c').2.trans (h.2 hp)

theorem accepts_alike (p : FilterPredicate) (column : String) (ha : c.Alike c') :
    p.accepts column c' = p.accepts column c :=
  funext fun r => (p.asks_test column r).alike c c' ha

theorem Blind.exists_both (hp : p.Blind) (hq : q.Blind) (column : String) :
    ∃ both : FilterPredicate, ∀ c r,
      both.accepts column c r = (p.accepts column c r && q.accepts column c r) := by
  obtain ⟨f, hf⟩ := hp.exists_test column
  obtain ⟨g, hg⟩ := hq.exists_test column
  refine ⟨.row fun s => f s && g s, fun c r => ?_⟩
  rw [show p.accepts column c r = _ from (hf r c).1, show q.accepts column c r = _ from (hg r c).1]
  rfl

end FilterPredicate

/-! ### Columns that are filled again -/

namespace DataColumn
variable {b : Bindings} {c : DataColumn}

open Act

theorem runAll_map_add (b : Bindings) (c : DataColumn) (xs : List (Cell Ref)) :
    runAll (xs.map add) (b, c) = (b, xs.foldl (push b) c) := by
  unfold runAll
  induction xs generalizing c with
  | nil => rfl
  | cons x xs ih => exact ih (c := c.push b x)

theorem added_map_add (xs : List (Cell Ref)) : added (xs.map add) = xs := by
  induction xs with
  | nil => rfl
  | cons x xs ih => exact congrArg (x :: ·) ih

theorem marks_map_add (b : Bindings) (xs : List (Cell Ref)) : marks b (xs.map add) = xs.map (vertexIn b) := by
  induction xs with
  | nil => rfl
  | cons x xs ih => exact congrArg (vertexIn b x :: ·) ih

def filled (b : Bindings) (name : String) (indexed : Bool) (xs : List (Cell Ref)) : DataColumn :=
  xs.foldl (push b) (new name indexed)

variable {name : String} {indexed : Bool} {xs : List (Cell Ref)}

theorem filled_eq : filled b name indexed xs = (runAll (xs.map add) (b, new name indexed)).2 := by
  rw [runAll_map_add]
  rfl

theorem toList_filled : (filled b name indexed xs).cells.toList = xs := by
  rw [filled_eq, cells_runAll, added_map_add]
  rfl

theorem hasIndex_filled : (filled b name indexed xs).hasIndex = indexed := by
  rw [filled_eq, hasIndex_runAll]
  cases indexed <;> rfl

theorem marked_filled : (filled b name indexed xs).Marked (xs.map (vertexIn b)) := by
  rw [filled_eq, ← marks_map_add]
  exact marked_runAll (marked_new name indexed) (xs.map add) b

theorem name_filled : (filled b name indexed xs).name = name := by
  unfold filled
  induction xs using List.reverseRecOn with
  | nil => rfl
  | append_singleton xs x ih => rwa [List.foldl_concat]

theorem contains_filled (cell : Cell Ref) :
    (filled b name indexed xs).contains b cell = xs.any (b.sameCell · cell) := by
  rw [Bool.eq_iff_iff, List.any_eq_true]
  cases indexed with
  | false => rw [contains_iff_of_not_hasIndex hasIndex_filled, toList_filled]
  | true =>
    rw [marked_filled.contains_iff hasIndex_filled, toList_filled]
    cases hv : vertexIn b cell with
    | none => exact Iff.rfl
    | some id => simp only [List.mem_map, sameCell_iff_of_vertexIn hv]

theorem cellOf_filled (id : VertexId) : (filled b name indexed xs).cellOf id =
    if indexed then .ok (xs.find? fun x => vertexIn b x = some id)
    else .error (.unsupported "key lookup on a column without index") := by
  have hi : (filled b name indexed xs).hasIndex = indexed := hasIndex_filled
  unfold cellOf
  cases indexed with
  | false =>
    rw [Option.isNone_iff_eq_none.1 (Option.isSome_eq_false_iff.1 hi)]
    rfl
  | true =>
    obtain ⟨m, hm⟩ := Option.isSome_iff_exists.1 hi
    have hcells (i : Nat) : (filled b name true xs).cells[i]? = xs[i]? := by
      rw [← Array.getElem?_toList, toList_filled]
    rw [hm, if_pos rfl, List.find?_eq_bind_findIdx?_getElem?]
    simp only [marked_filled.index m hm id, List.findIdx?_map, hcells]
    rfl

end DataColumn

namespace Column
variable {b : Bindings} {c d : Column} {xs : List (Cell Ref)}

/-- A column of the same kind with these cells. -/
def refill (b : Bindings) (xs : List (Cell Ref)) : Column → Column
  | data c => data (.filled b c.name c.hasIndex xs)
  | predicate n accepts => predicate n accepts
  | any n _ => any n xs.toArray

@[simp] theorem name_refill : (c.refill b xs).name = c.name := by
  cases c with
  | predicate | any => rfl
  | data c => exact DataColumn.name_filled

@[simp] theorem schema_refill : (c.refill b xs).schema = c.schema := by
  cases c with
  | predicate | any => rfl
  | data c =>
    show data (.new _ _) = data (.new _ _)
    rw [DataColumn.name_filled, DataColumn.hasIndex_filled]

theorem refill_nil : c.refill b [] = c.schema := by cases c <;> rfl

theorem refill_refill {ys : List (Cell Ref)} : (c.refill b xs).refill b ys = c.refill b ys := by
  cases c with
  | predicate | any => rfl
  | data c =>
    show data (.filled b _ _ ys) = data (.filled b _ _ ys)
    rw [DataColumn.name_filled, DataColumn.hasIndex_filled]

theorem push_refill (h : c.isPredicate = false) (x : Cell Ref) :
    (c.refill b xs).push b x = .ok (c.refill b (xs ++ [x])) := by
  cases c with
  | predicate => cases h
  | data c => exact congrArg (fun d => Except.ok (data d)) (List.foldl_concat ..).symm
  | any n cells => exact congrArg (fun a => Except.ok (any n a)) (List.push_toArray xs x)

/-- `d` is a copy of `c` that was filled with just these cells, finds just them, and gives of each vertex
the first one if it has an index. -/
structure Refilled (b : Bindings) (c : Column) (xs : List (Cell Ref)) (d : Column) : Prop where
  schema : d.schema = c.schema
  built : xs.foldlM (fun d x => d.push b x) c.schema = .ok d
  member : ∀ cell (g : Context), g.bindings = b →
    (d.contains cell).run g = (xs.any (b.sameCell · cell), g)
  key : ∀ e, d = .data e → ∀ id, e.cellOf id =
    if e.hasIndex then .ok (xs.find? fun x => DataColumn.vertexIn b x = some id)
    else .error (.unsupported "key lookup on a column without index")

theorem refilled_refill (h : c.isPredicate = false) (b : Bindings) (xs : List (Cell Ref)) :
    c.Refilled b xs (c.refill b xs) where
  schema := schema_refill
  built := by
    induction xs using List.reverseRecOn with
    | nil => exact congrArg Except.ok refill_nil.symm
    | append_singleton xs x ih =>
      rw [List.foldlM_append, ih, ok_bind, List.foldlM_cons, push_refill h]
      rfl
  member cell g hg := by
    cases c with
    | predicate => cases h
    | data c =>
      show (DataColumn.contains g.bindings _ cell, g) = _
      rw [hg, DataColumn.contains_filled]
    | any n cells =>
      show (xs.toArray.any (g.bindings.sameCell · cell), g) = _
      rw [hg, List.any_toArray]
  key e he id := by
    cases c with
    | predicate | any => cases he
    | data c =>
      cases he
      rw [DataColumn.cellOf_filled, DataColumn.hasIndex_filled]

end Column

/-! ### Tables that are filled again -/

def cellsUnder (rows : List (Row Ref)) (name : String) : List (Cell Ref) :=
  rows.map fun r => (r.lookup name).getD .null

theorem map_lookup_zip {names : List String} {cells : List (Cell Ref)} (hn : names.Nodup)
    (hl : cells.length = names.length) :
    names.map (fun n => ((names.zip cells).lookup n).getD .null) = cells := by
  induction names generalizing cells with
  | nil => exact (List.length_eq_zero_iff.1 hl).symm
  | cons n names ih =>
    obtain ⟨hnew, hn⟩ := List.nodup_cons.1 hn
    cases cells with
    | nil => cases hl
    | cons cell cells =>
      have htail : names.map (fun m => (((n :: names).zip (cell :: cells)).lookup m).getD .null) =
          names.map fun m => ((names.zip cells).lookup m).getD .null := by
        refine List.map_congr_left fun m hm => ?_
        have hne : m ≠ n := fun he => hnew (he ▸ hm)
        rw [List.zip_cons_cons, List.lookup_cons, beq_false_of_ne hne]
      rw [List.map_cons, htail, ih hn (Nat.succ.inj hl), List.zip_cons_cons, List.lookup_cons_self]
      rfl

namespace Table
variable {b : Bindings} {t : Table} {s : Sheet} {rows kept : List (Row Ref)} {r : Row Ref}

theorem Reads.rows_eq (h : t.Reads s) : t.rows = .ok (s.rows.map s.names.zip) := by
  unfold Table.rows
  have hrange : List.Forall₂ (fun i cells => t.row i = .ok (s.names.zip cells))
      (List.range t.rowCount) s.rows := by
    refine List.forall₂_iff_get.2 ⟨by rw [List.length_range, h.rowCount], fun i hi hs => ?_⟩
    rw [List.get_eq_getElem, List.getElem_range, h.row, h.rowCells, List.getElem?_eq_getElem hs]
    rfl
  exact mapM_eq_ok hrange

/-- A table of the same columns with these rows. -/
def refill (b : Bindings) (t : Table) (rows : List (Row Ref)) : Table :=
  { t with
    size := min t.size 0 + rows.length
    columns := t.columns.map fun c => c.refill b (cellsUnder rows c.name) }

theorem duplicate_true (b : Bindings) (t : Table) : t.duplicate true = t.refill b [] := by
  unfold duplicate refill
  refine congrArg₂ (Table.mk t.name) (Int.add_zero _).symm (List.map_congr_left fun c _ => ?_)
  exact Column.refill_nil.symm

theorem addRow_refill (hp : t.hasPredicate = false) (rows : List (Row Ref)) (r : Row Ref) :
    (t.refill b rows).addRow b r = .ok (t.refill b (rows ++ [r])) := by
  have hpush : List.Forall₂ (fun c d => c.push b ((r.lookup c.name).getD .null) = .ok d)
      (t.refill b rows).columns (t.refill b (rows ++ [r])).columns := by
    refine List.forall₂_map_left_iff.2 (List.forall₂_map_right_iff.2 (List.forall₂_same.2 fun c hc => ?_))
    rw [Column.name_refill, Column.push_refill (hasPredicate_eq_false_iff.1 hp c hc)]
    unfold cellsUnder
    rw [List.map_append]
    rfl
  have hsize : (t.refill b rows).size + 1 = (t.refill b (rows ++ [r])).size := by
    show min t.size 0 + rows.length + 1 = min t.size 0 + (rows ++ [r]).length
    rw [List.length_append, List.length_singleton]
    omega
  rw [addRow_eq_ok hpush, hsize]
  rfl

theorem refill_refill (hr : rows = [] ∨ 0 ≤ t.size) : (t.refill b rows).refill b kept = t.refill b kept := by
  unfold refill
  refine congrArg₂ (Table.mk t.name) ?_ ?_
  · show min (min t.size 0 + rows.length) 0 + (kept.length : Int) = min t.size 0 + kept.length
    rcases hr with rfl | hr
    · rw [List.length_nil]
      omega
    · omega
  · show (t.columns.map _).map _ = _
    rw [List.map_map]
    refine List.map_congr_left fun c _ => ?_
    show (c.refill b _).refill b (cellsUnder kept (c.refill b _).name) = _
    rw [Column.name_refill, Column.refill_refill]

theorem refill_nil_of_hasPredicate (h : t.WellFormed) (hp : t.hasPredicate = true) :
    t.refill b [] = t := by
  rcases h.kind with ⟨hno, -⟩ | ⟨-, hall, hsize⟩
  · cases hno.symm.trans hp
  obtain ⟨name, size, columns⟩ := t
  cases hsize
  refine congrArg (Table.mk name predicateSize) ((List.map_congr_left fun c hc => ?_).trans (List.map_id _))
  have hc := hall c hc
  cases c with
  | data | any => cases hc
  | predicate => rfl

theorem rows_of_hasPredicate (h : t.WellFormed) (hp : t.hasPredicate = true) : t.rows = .ok [] := by
  rcases h.kind with ⟨hno, -⟩ | ⟨-, -, hsize⟩
  · cases hno.symm.trans hp
  unfold Table.rows rowCount
  rw [hsize]
  rfl

theorem rows_eq_nil_or (h : t.WellFormed) (hrows : t.rows = .ok rows) :
    rows = [] ∨ t.hasPredicate = false := by
  cases hp : t.hasPredicate with
  | false => exact Or.inr rfl
  | true =>
    cases (rows_of_hasPredicate h hp).symm.trans hrows
    exact Or.inl rfl

namespace Gridded

theorem renamed (h : t.Gridded) (name : String) : (t.renamed name).Gridded :=
  ⟨h.wellFormed.renamed name, h.plain⟩

theorem rows_eq (h : t.Gridded) : t.rows = .ok (t.sheet.rows.map t.headers.zip) := h.reads.rows_eq

theorem zip_lookup (h : t.Gridded) (hr : r ∈ t.sheet.rows.map t.headers.zip) :
    t.headers.zip (t.headers.map fun n => (r.lookup n).getD .null) = r := by
  obtain ⟨cells, hcells, rfl⟩ := List.mem_map.1 hr
  obtain ⟨i, -, rfl⟩ := List.mem_map.1 hcells
  have hlength : (t.line i).length = t.headers.length := by
    unfold line headers
    rw [List.length_map, List.length_map]
  rw [map_lookup_zip h.wellFormed.distinct hlength]

theorem refill (h : t.Gridded) (b : Bindings) (rows : List (Row Ref)) :
    (t.refill b rows).Gridded ∧ (t.refill b rows).sheet =
      ⟨t.headers, rows.map fun r => t.headers.map fun n => (r.lookup n).getD .null⟩ := by
  induction rows using List.reverseRecOn with
  | nil =>
    rw [← duplicate_true]
    refine ⟨⟨h.wellFormed.duplicate true, hasPredicate_eq_false_iff.2 ?_⟩, congrArg₂ Sheet.mk ?_ ?_⟩
    · refine List.forall_mem_map.2 fun c hc => ?_
      rw [Column.isPredicate_duplicate]
      exact h.isPredicate hc
    · show (t.columns.map _).map Column.name = _
      rw [List.map_map]
      exact List.map_congr_left fun c _ => Column.name_duplicate c true
    · have hsize : min t.size 0 = 0 := by
        rw [h.size_eq]
        exact Int.min_eq_right (Int.natCast_nonneg _)
      show (List.range (min t.size 0).toNat).map _ = []
      rw [hsize]
      rfl
  | append_singleton rows r ih =>
    obtain ⟨h', hsheet⟩ := ih
    obtain ⟨t', hok, ht', hsheet'⟩ := h'.exists_addRow b r
    cases (addRow_refill h.plain rows r).symm.trans hok
    refine ⟨ht', ?_⟩
    rw [hsheet', hsheet, List.map_append]
    rfl

theorem rows_refill (h : t.Gridded) (hrows : t.rows = .ok rows) (hkept : kept ⊆ rows) (name : String) :
    ((t.refill b kept).renamed name).rows = .ok kept := by
  cases h.rows_eq.symm.trans hrows
  obtain ⟨h', hsheet⟩ := h.refill b kept
  have hnames : (t.refill b kept).headers = t.headers := congrArg Sheet.names hsheet
  refine (h'.renamed name).rows_eq.trans (congrArg Except.ok ?_)
  show (t.refill b kept).sheet.rows.map (t.refill b kept).headers.zip = kept
  rw [hsheet, hnames, List.map_map]
  exact (List.map_congr_left fun r hr => h.zip_lookup (hkept hr)).trans (List.map_id _)

end Gridded

/-- `r` is `t` under another name with just these of its rows: the same columns, of which each is as if
it had been filled with the cells of these rows. -/
structure Retains (b : Bindings) (t : Table) (a : String) (kept : List (Row Ref)) (r : Table) :
    Prop where
  name : r.name = a
  schema : r.columns.map Column.schema = t.columns.map Column.schema
  rows : r.rows = .ok kept
  columns : List.Forall₂ (fun c d => c.Refilled b (cellsUnder kept c.name) d) t.columns r.columns

theorem Gridded.retains_refill (h : t.Gridded) (hrows : t.rows = .ok rows) (hkept : kept ⊆ rows)
    (name : String) : t.Retains b name kept ((t.refill b kept).renamed name) where
  name := rfl
  schema := by
    show (t.columns.map _).map Column.schema = _
    rw [List.map_map]
    exact List.map_congr_left fun c _ => Column.schema_refill
  rows := h.rows_refill hrows hkept name
  columns := List.forall₂_map_right_iff.2 (List.forall₂_same.2 fun c hc =>
    Column.refilled_refill (h.isPredicate hc) b _)

end Table

/-! ### Filters -/

namespace Filter
variable {t : Table} {p : FilterPredicate} {c c' : Context} {name : String} {rows done : List (Row Ref)}

theorem wpE_keep_refill (hp : t.hasPredicate = false) (h : p.Leaves c c') (r : Row Ref) :
    wpE (keep p name (t.refill c.bindings done) r)
      (fun u c'' => u = t.refill c.bindings (done ++ [r].filter (p.accepts name c)) ∧ p.Leaves c c'')
      Never c' := by
  unfold keep
  rw [wpE_bind, wpE_lift]
  refine wp_mono (FilterPredicate.wp_test h name r) fun yes c'' hy => ?_
  obtain ⟨rfl, h'⟩ := hy
  cases hr : p.accepts name c r with
  | false =>
    refine ⟨?_, h'⟩
    rw [List.filter_singleton, hr, cond_false, List.append_nil]
  | true =>
    rw [if_pos rfl, wpE_bind, wpE_get]
    dsimp only
    rw [h'.1.bindings, Table.addRow_refill hp, List.filter_singleton, hr]
    exact ⟨rfl, h'⟩

/-- What a filter makes of a table is told by the rows that its predicate accepts. -/
theorem wpE_apply (hrows : t.rows = .ok rows) (hp : rows = [] ∨ t.hasPredicate = false)
    (h : p.Leaves c c') (name : String) :
    wpE (apply ⟨name, .retain p⟩ t)
      (fun u c'' => u = (t.refill c.bindings (rows.filter (p.accepts name c))).renamed name ∧
        p.Leaves c c'') Never c' := by
  have hfold : ∀ (done rows : List (Row Ref)) (c' : Context), rows = [] ∨ t.hasPredicate = false →
      p.Leaves c c' → wpE (rows.foldlM (keep p name) (t.refill c.bindings done))
        (fun u c'' => u = t.refill c.bindings (done ++ rows.filter (p.accepts name c)) ∧
          p.Leaves c c'') Never c' := by
    intro done rows
    induction rows generalizing done with
    | nil => exact fun c' _ h => ⟨by rw [List.filter_nil, List.append_nil], h⟩
    | cons r rows ih =>
      intro c' hp h
      have hp := hp.resolve_left (List.cons_ne_nil _ _)
      rw [List.foldlM_cons, wpE_bind]
      refine wpE_of_never (wpE_keep_refill hp h r) fun u c'' hu => ?_
      obtain ⟨rfl, h'⟩ := hu
      rw [show (r :: rows).filter _ = _ from List.filter_append [r] rows, ← List.append_assoc]
      exact ih _ c'' (Or.inr hp) h'
  unfold apply retain
  rw [wpE_bind, wpE_bind, hrows, wpE_except]
  dsimp only
  rw [Table.duplicate_true c.bindings]
  refine wpE_of_never (hfold [] rows c' hp h) fun u c'' hu => ?_
  obtain ⟨rfl, h'⟩ := hu
  exact ⟨rfl, h'⟩

theorem rows_refill_filter (h : t.WellFormed) (hrows : t.rows = .ok rows) (b : Bindings)
    (f : Row Ref → Bool) (name : String) :
    ((t.refill b (rows.filter f)).renamed name).rows = .ok (rows.filter f) := by
  cases hp : t.hasPredicate with
  | false => exact Table.Gridded.rows_refill ⟨h, hp⟩ hrows (List.filter_subset_self rows) name
  | true =>
    cases (Table.rows_of_hasPredicate h hp).symm.trans hrows
    rw [List.filter_nil, Table.refill_nil_of_hasPredicate h hp]
    exact Table.rows_of_hasPredicate (h.renamed name) hp

/-- One filter after the other keeps what both predicates accept. -/
theorem wpE_apply_apply (h : t.WellFormed) (hrows : t.rows = .ok rows) (name : String) (c : Context)
    (p q : FilterPredicate) :
    wpE (apply ⟨name, .retain p⟩ t >>= apply ⟨name, .retain q⟩)
      (fun u c' => u = (t.refill c.bindings
          (rows.filter fun r => p.accepts name c r && q.accepts name c r)).renamed name ∧
        c.Alike c' ∧ (p.Blind → q.Blind → c' = c)) Never c := by
  have hkind := Table.rows_eq_nil_or h hrows
  have hkept : rows.filter (p.accepts name c) = [] ∨ t.hasPredicate = false :=
    hkind.imp_left fun hnil => by rw [hnil, List.filter_nil]
  have hsize : rows.filter (p.accepts name c) = [] ∨ 0 ≤ t.size :=
    hkept.imp_right fun hp => Table.Gridded.size_eq ⟨h, hp⟩ ▸ Int.natCast_nonneg _
  have hplain : t.hasPredicate = false →
      ((t.refill c.bindings (rows.filter (p.accepts name c))).renamed name).hasPredicate = false :=
    fun hp => (Table.Gridded.refill ⟨h, hp⟩ c.bindings _).1.plain
  rw [wpE_bind]
  refine wpE_of_never (wpE_apply hrows hkind (p.leaves_refl c) name) fun u c₁ hu => ?_
  obtain ⟨rfl, ha, hpure⟩ := hu
  -- the second filter is given the rows that the first one has kept
  refine wpE_of_never (wpE_apply (rows_refill_filter h hrows c.bindings _ name) (hkept.imp_right hplain)
    (q.leaves_refl c₁) name) fun u c₂ hu => ?_
  obtain ⟨rfl, ha', hpure'⟩ := hu
  refine ⟨?_, ha.trans ha', fun hp hq => (hpure' hq).trans (hpure hp)⟩
  rw [ha.bindings, q.accepts_alike name ha, List.filter_filter]
  show ((t.refill _ _).refill _ _).renamed name = _
  rw [Table.refill_refill hsize]
  refine congrArg (fun f => (t.refill c.bindings (rows.filter f)).renamed name) (funext fun r => ?_)
  exact Bool.and_comm ..

/-- A filter of a table that was built does not fail. If the table has cells, it keeps the rows that the
predicate accepts, in a table of the same columns that are as if they had been filled with the cells of
these rows; a table of predicate columns it only renames. Two filters of one alias may change places,
and they come to one that accepts what both accept; if both ask for no node, there is one. -/
theorem retain_keeps_accepted (hb : t.Built) (name : String) (c : Context) :
    ∃ rows, t.rows = .ok rows ∧
      (t.hasPredicate = false → ∀ p : FilterPredicate, ∃ r c',
        (apply ⟨name, .retain p⟩ t).run.run c = (.ok r, c') ∧ p.Leaves c c' ∧
          t.Retains c.bindings name (rows.filter (p.accepts name c)) r) ∧
      (t.hasPredicate = true → ∀ p : FilterPredicate,
        (apply ⟨name, .retain p⟩ t).run.run c = (.ok (t.renamed name), c)) ∧
      ∀ p q : FilterPredicate, ∃ r c₁ c₂,
        (apply ⟨name, .retain p⟩ t >>= apply ⟨name, .retain q⟩).run.run c = (.ok r, c₁) ∧
        (apply ⟨name, .retain q⟩ t >>= apply ⟨name, .retain p⟩).run.run c = (.ok r, c₂) ∧
        c.Alike c₁ ∧ c.Alike c₂ ∧
        (∀ both : FilterPredicate,
          (∀ row ∈ rows, both.accepts name c row = (p.accepts name c row && q.accepts name c row)) →
          ∃ c₃, (apply ⟨name, .retain both⟩ t).run.run c = (.ok r, c₃) ∧ both.Leaves c c₃) ∧
        (p.Blind → q.Blind → c₁ = c ∧ c₂ = c ∧ ∃ both : FilterPredicate, ∀ d row,
          both.accepts name d row = (p.accepts name d row && q.accepts name d row)) := by
  have h := hb.wellFormed
  obtain ⟨rows, hrows⟩ : ∃ rows, t.rows = .ok rows := by
    cases hp : t.hasPredicate with
    | false => exact ⟨_, Table.Gridded.rows_eq ⟨h, hp⟩⟩
    | true => exact ⟨_, Table.rows_of_hasPredicate h hp⟩
  have hkind := Table.rows_eq_nil_or h hrows
  refine ⟨rows, hrows, fun hp p => ?_, fun hp p => ?_, fun p q => ?_⟩
  · obtain ⟨r, c', hrun, rfl, hleaves⟩ := exists_of_wpE
      (wpE_apply hrows hkind (p.leaves_refl c) name)
    exact ⟨_, c', hrun, hleaves,
      Table.Gridded.retains_refill ⟨h, hp⟩ hrows (List.filter_subset_self rows) name⟩
  · unfold apply retain
    rw [Table.rows_of_hasPredicate h hp, Table.duplicate_true .empty, Table.refill_nil_of_hasPredicate h hp]
    rfl
  · obtain ⟨r, c₁, hpq, rfl, ha₁, hpure₁⟩ := exists_of_wpE (wpE_apply_apply h hrows name c p q)
    obtain ⟨r, c₂, hqp, rfl, ha₂, hpure₂⟩ := exists_of_wpE (wpE_apply_apply h hrows name c q p)
    rw [show (fun row => q.accepts name c row && p.accepts name c row) = _ from
      funext fun row => Bool.and_comm ..] at hqp
    refine ⟨_, c₁, c₂, hpq, hqp, ha₁, ha₂, fun both hboth => ?_, fun hp hq =>
      ⟨hpure₁ hp hq, hpure₂ hq hp, hp.exists_both hq name⟩⟩
    obtain ⟨r, c₃, hrun, rfl, hleaves⟩ := exists_of_wpE
      (wpE_apply hrows hkind (both.leaves_refl c) name)
    rw [List.filter_congr hboth] at hrun
    exact ⟨c₃, hrun, hleaves⟩

/-- The row of one file. -/
theorem retain_keeps_accepted_lines :
    Query.linesTable.Built ∧ ∃ r c',
      (apply ⟨"b", .retain (.row fun row => (row.lookup "file").any (·.same (.text "b")))⟩
        Query.linesTable).run.run (.new ⟨"plain", [], []⟩ none) = (.ok r, c') ∧
      r.name = "b" ∧ r.rows = .ok [[("file", .text "b"), ("line", .null)]] := by
  have hbuilt : Query.linesTable.Built := ⟨_, _, rfl⟩
  obtain ⟨rows, hrows, hkeeps, -⟩ :=
    retain_keeps_accepted hbuilt "b" (.new ⟨"plain", [], []⟩ none)
  obtain rfl : [[("file", .text "a"), ("line", .text "1")], [("file", .text "b"), ("line", .null)]] = rows :=
    Except.ok.inj hrows
  obtain ⟨r, c', hrun, -, hretains⟩ :=
    hkeeps rfl (.row fun row => (row.lookup "file").any (·.same (.text "b")))
  exact ⟨hbuilt, r, c', hrun, hretains.name, hretains.rows⟩

end Filter

end CodeGraph
