import CodeGraph.Proofs.Binding
import CodeGraph.Proofs.TableSet
import CodeGraph.Proofs.TwoRuns
import CodeGraph.Query.Filter

/-!
# Tables of two runs

Two runs put different objects into their tables. When a relation pairs objects that are seen alike,
two tables are paired if they have the same shape and hold paired objects in the same places
(`Table.Paired`). Whatever is done alike to paired tables gives paired tables, or fails with the same
error.
-/

namespace CodeGraph

def SeenAlike (b b' : Bindings) (V : Value → Value → Prop) : Prop :=
  ∀ v v', V v v' → b.view v = b'.view v'

variable {V V' : Value → Value → Prop} {b b' : Bindings}

namespace SeenAlike
variable {v v' : Value}

theorem identity_eq (hV : SeenAlike b b' V) (h : V v v') : b.identity v.tag = b'.identity v'.tag := by
  rw [← Tree.tag_map b.identity, ← Tree.tag_map b'.identity]
  exact congrArg Tree.tag (hV v v' h)

theorem vertex?_eq (hV : SeenAlike b b' V) (h : V v v') : b.vertex? v = b'.vertex? v' := by
  refine Option.ext fun id => ?_
  show b.vertexOf[v.tag]? = some id ↔ b'.vertexOf[v'.tag]? = some id
  rw [← Bindings.identity_eq_vertex_iff, ← Bindings.identity_eq_vertex_iff, hV.identity_eq h]

end SeenAlike

theorem eq_none_or_of_rel {α β : Type} {R : α → β → Prop} {x : Option α} {y : Option β}
    (h : Option.Rel R x y) : x = none ∧ y = none ∨ ∃ a b, x = some a ∧ y = some b ∧ R a b := by
  cases h with
  | none => exact Or.inl ⟨rfl, rfl⟩
  | some h => exact Or.inr ⟨_, _, rfl, rfl, h⟩

theorem map_eq_of_forall₂ {α β γ : Type} {R : α → β → Prop} {xs : List α} {ys : List β} {f : α → γ}
    {g : β → γ} (h : List.Forall₂ R xs ys) (hfg : ∀ x y, R x y → f x = g y) : xs.map f = ys.map g := by
  induction h with
  | nil => rfl
  | cons hxy _ ih => rw [List.map_cons, List.map_cons, hfg _ _ hxy, ih]

/-! ### Cells and rows -/

inductive Cell.Paired (V : Value → Value → Prop) : Cell Ref → Cell Ref → Prop where
  | null : Paired V .null .null
  | value {v v' : Value} : V v v' → Paired V (.value v) (.value v')
  | text (s : String) : Paired V (.text s) (.text s)
  | path {p p' : FlowPath Ref} : List.Forall₂ V p p' → Paired V (.path p) (.path p')

namespace Cell.Paired
variable {c c' d d' : Cell Ref}

theorem refl (hV : ∀ v, V v v) (c : Cell Ref) : c.Paired V c := by
  cases c with
  | null => exact .null
  | value v => exact .value (hV v)
  | text s => exact .text s
  | path p => exact .path (List.forall₂_same.2 fun v _ => hV v)

theorem mono (h : c.Paired V c') (hV : ∀ v v', V v v' → V' v v') : c.Paired V' c' := by
  cases h with
  | null => exact .null
  | value h => exact .value (hV _ _ h)
  | text s => exact .text s
  | path h => exact .path (h.imp hV)

theorem map_eq (h : c.Paired V c') (hV : SeenAlike b b' V) : c.map b.identity = c'.map b'.identity := by
  cases h with
  | null => rfl
  | value h => exact congrArg Cell.value (hV _ _ h)
  | text s => rfl
  | path h =>
    refine congrArg Cell.path ?_
    induction h with
    | nil => rfl
    | cons hv _ ih =>
      rw [Tree.mapAll, Tree.mapAll, ih]
      exact congrArg (· :: _) (hV _ _ hv)

theorem cellKey_eq (h : c.Paired V c') (hV : SeenAlike b b' V) : b.cellKey c = b'.cellKey c' := by
  cases h with
  | null => rfl
  | value h => exact congrArg CellKey.value (hV.identity_eq h)
  | text s => rfl
  | path h =>
    refine congrArg CellKey.path ?_
    induction h with
    | nil => rfl
    | cons hv _ ih => rw [List.map_cons, List.map_cons, ih, hV.identity_eq hv]

theorem sameCell_eq (h : c.Paired V c') (hd : d.Paired V d') (hV : SeenAlike b b' V) :
    b.sameCell c d = b'.sameCell c' d' := by
  unfold Bindings.sameCell
  rw [h.cellKey_eq hV, hd.cellKey_eq hV]

theorem vertexIn_eq (h : c.Paired V c') (hV : SeenAlike b b' V) :
    DataColumn.vertexIn b c = DataColumn.vertexIn b' c' := by
  cases h with
  | null => rfl
  | value h => exact hV.vertex?_eq h
  | text s => rfl
  | path h => rfl

theorem value? (h : c.Paired V c') : Option.Rel V c.value? c'.value? := by
  cases h with
  | null | text | path => exact .none
  | value h => exact .some h

end Cell.Paired

def Row.Paired (V : Value → Value → Prop) : Row Ref → Row Ref → Prop :=
  List.Forall₂ fun x y => x.1 = y.1 ∧ x.2.Paired V y.2

namespace Row.Paired
variable {r r' : Row Ref}

theorem mono (h : Row.Paired V r r') (hV : ∀ v v', V v v' → V' v v') : Row.Paired V' r r' :=
  List.Forall₂.imp (fun _ _ hxy => ⟨hxy.1, hxy.2.mono hV⟩) h

theorem viewRow_eq (h : Row.Paired V r r') (hV : SeenAlike b b' V) : b.viewRow r = b'.viewRow r' :=
  map_eq_of_forall₂ h fun _ _ hxy => congrArg₂ Prod.mk hxy.1 (hxy.2.map_eq hV)

theorem lookup (h : Row.Paired V r r') (name : String) :
    Option.Rel (Cell.Paired V) (r.lookup name) (r'.lookup name) := by
  induction h with
  | nil => exact .none
  | @cons x y _ _ hxy _ ih =>
    rw [Dictionary.lookup_cons_ite, Dictionary.lookup_cons_ite, hxy.1]
    split
    · exact .some hxy.2
    · exact ih

theorem getD_lookup (h : Row.Paired V r r') (name : String) :
    ((r.lookup name).getD .null).Paired V ((r'.lookup name).getD .null) := by
  have hrel := h.lookup name
  generalize r.lookup name = x, r'.lookup name = y at hrel ⊢
  cases hrel with
  | some hc => exact hc
  | none => exact .null

end Row.Paired

/-! ### Columns -/

/-- Columns of one kind and name with paired cells, and indexes that know the same vertices. -/
inductive Column.Paired (V : Value → Value → Prop) : Column → Column → Prop where
  | data {d d' : DataColumn} (name : d.name = d'.name)
      (cells : List.Forall₂ (Cell.Paired V) d.cells.toList d'.cells.toList)
      (index : ∀ id, d.index.map (·.contains id) = d'.index.map (·.contains id)) :
      Paired V (.data d) (.data d')
  | predicate (name : String) (accepts : ValuePredicate) :
      Paired V (.predicate name accepts) (.predicate name accepts)
  | any (name : String) {cells cells' : Array (Cell Ref)} :
      List.Forall₂ (Cell.Paired V) cells.toList cells'.toList →
      Paired V (.any name cells) (.any name cells')

theorem getElem?_toList_rel {α β : Type} {R : α → β → Prop} {xs : Array α} {ys : Array β}
    (h : List.Forall₂ R xs.toList ys.toList) (i : Nat) : Option.Rel R xs[i]? ys[i]? := by
  rw [← Array.getElem?_toList, ← Array.getElem?_toList]
  generalize xs.toList = xs at h
  generalize ys.toList = ys at h
  induction h generalizing i with
  | nil => exact .none
  | cons hxy _ ih =>
    cases i with
    | zero => exact .some hxy
    | succ i => exact ih i

theorem any_eq_of_forall₂ {α β : Type} {R : α → β → Prop} {xs : List α} {ys : List β}
    {f : α → Bool} {g : β → Bool} (h : List.Forall₂ R xs ys) (hfg : ∀ x y, R x y → f x = g y) :
    xs.any f = ys.any g := by
  induction h with
  | nil => rfl
  | cons hxy _ ih => rw [List.any_cons, List.any_cons, hfg _ _ hxy, ih]

namespace Column.Paired
variable {c c' : Column} {cell cell' : Cell Ref}

theorem mono (h : c.Paired V c') (hV : ∀ v v', V v v' → V' v v') : c.Paired V' c' := by
  cases h with
  | data name cells index => exact .data name (cells.imp fun _ _ h => h.mono hV) index
  | predicate name accepts => exact .predicate name accepts
  | any name cells => exact .any name (cells.imp fun _ _ h => h.mono hV)

theorem name_eq (h : c.Paired V c') : c.name = c'.name := by
  cases h with
  | data name => exact name
  | predicate | any => rfl

theorem isPredicate_eq (h : c.Paired V c') : c.isPredicate = c'.isPredicate := by
  cases h <;> rfl

theorem size_eq (h : c.Paired V c') : c.size = c'.size := by
  cases h with
  | data name cells =>
    have hlen := cells.length_eq
    rw [Array.length_toList, Array.length_toList] at hlen
    exact congrArg Int.ofNat hlen
  | predicate => rfl
  | any name cells =>
    have hlen := cells.length_eq
    rw [Array.length_toList, Array.length_toList] at hlen
    exact congrArg Int.ofNat hlen

theorem cells (h : c.Paired V c') :
    Agree (fun xs ys => List.Forall₂ (Cell.Paired V) xs.toList ys.toList) c.cells c'.cells := by
  cases h with
  | data name cells => exact cells
  | predicate => rfl
  | any name cells => exact cells

theorem push_any {xs ys : Array (Cell Ref)} (h : List.Forall₂ (Cell.Paired V) xs.toList ys.toList)
    (hc : cell.Paired V cell') :
    List.Forall₂ (Cell.Paired V) (xs.push cell).toList (ys.push cell').toList := by
  rw [Array.toList_push, Array.toList_push]
  exact List.rel_append h (.cons hc .nil)

theorem push (h : c.Paired V c') (hV : SeenAlike b b' V) (hc : cell.Paired V cell') :
    Agree (Column.Paired V) (c.push b cell) (c'.push b' cell') := by
  cases h with
  | predicate => rfl
  | any name cells => exact Paired.any name (push_any cells hc)
  | @data d d' name cells index =>
    refine Paired.data name (push_any cells hc) fun id => ?_
    have hsize : d.cells.size = d'.cells.size := by
      rw [← Array.length_toList, ← Array.length_toList, cells.length_eq]
    have hid := index id
    show (d.index.map _).map _ = (d'.index.map _).map _
    rw [hc.vertexIn_eq hV, Option.map_map, Option.map_map, hsize]
    cases hd : d.index with
    | none =>
      rw [hd] at hid
      rw [Option.map_eq_none_iff.1 hid.symm]
    | some i =>
      rw [hd] at hid
      obtain ⟨i', hi', heq⟩ := Option.map_eq_some_iff.1 hid.symm
      rw [hi']
      refine congrArg some ?_
      cases DataColumn.vertexIn b' cell' with
      | none => exact heq.symm
      | some x =>
        show (i.insertIfNew x d'.cells.size).contains id = (i'.insertIfNew x d'.cells.size).contains id
        rw [Std.HashMap.contains_insertIfNew, Std.HashMap.contains_insertIfNew, heq]

theorem pad (hV : SeenAlike b b' V) (hc : cell.Paired V cell') (n : Nat) {c c' : Column}
    (h : c.Paired V c') : Agree (Column.Paired V) (c.pad b cell n) (c'.pad b' cell' n) := by
  induction n generalizing c c' with
  | zero => exact h
  | succ n ih => exact (h.push hV hc).bind fun _ _ h => ih h

theorem cellAt (h : c.Paired V c') (i : Nat) : Agree (Cell.Paired V) (c.cell i) (c'.cell i) := by
  unfold Column.cell
  refine h.cells.bind fun xs ys hxy => ?_
  have hrel := getElem?_toList_rel hxy i
  generalize xs[i]? = x, ys[i]? = y at hrel ⊢
  cases hrel with
  | some hc => exact hc
  | none => rw [h.name_eq]; rfl

theorem schema (h : c.Paired V c') : c.schema.Paired V c'.schema := by
  cases h with
  | predicate name accepts => exact .predicate name accepts
  | any name => exact .any name .nil
  | @data d d' name cells index =>
    refine .data name .nil fun id => ?_
    have hid := congrArg Option.isSome (index id)
    rw [Option.isSome_map, Option.isSome_map] at hid
    show (if d.index.isSome then _ else _ : Option _).map _ = (if d'.index.isSome then _ else _ : Option _).map _
    rw [hid]

end Column.Paired

/-! ### Tables -/

structure Table.Paired (V : Value → Value → Prop) (t t' : Table) : Prop where
  name : t.name = t'.name
  size : t.size = t'.size
  columns : List.Forall₂ (Column.Paired V) t.columns t'.columns

namespace Table.Paired
variable {t t' : Table} {c c' : Column} {r r' : Row Ref}

theorem mono (h : t.Paired V t') (hV : ∀ v v', V v v' → V' v v') : t.Paired V' t' :=
  ⟨h.name, h.size, h.columns.imp fun _ _ hc => hc.mono hV⟩

theorem ofColumn (name : String) (h : c.Paired V c') :
    (Table.ofColumn name c).Paired V (.ofColumn name c') := ⟨rfl, h.size_eq, .cons h .nil⟩

theorem renamed (h : t.Paired V t') (name : String) : (t.renamed name).Paired V (t'.renamed name) :=
  ⟨rfl, h.size, h.columns⟩

theorem rowCount_eq (h : t.Paired V t') : t.rowCount = t'.rowCount := congrArg Int.toNat h.size

theorem headers_eq (h : t.Paired V t') : t.headers = t'.headers :=
  map_eq_of_forall₂ h.columns fun _ _ hc => hc.name_eq

theorem column? (h : t.Paired V t') (name : String) :
    Option.Rel (Column.Paired V) (t.column? name) (t'.column? name) := by
  have hcols := h.columns
  unfold Table.column?
  generalize t.columns = cs, t'.columns = cs' at hcols ⊢
  induction hcols with
  | nil => exact .none
  | @cons c c' _ _ hc _ ih =>
    rw [List.find?_cons, List.find?_cons, hc.name_eq]
    cases c'.name == name
    · exact ih
    · exact .some hc

theorem hasColumn_eq (h : t.Paired V t') (name : String) : t.hasColumn name = t'.hasColumn name := by
  have hrel := h.column? name
  unfold hasColumn
  generalize t.column? name = x, t'.column? name = y at hrel ⊢
  cases hrel <;> rfl

theorem hasPredicate_eq (h : t.Paired V t') : t.hasPredicate = t'.hasPredicate :=
  any_eq_of_forall₂ h.columns fun _ _ hc => hc.isPredicate_eq

theorem isEmpty_columns (h : t.Paired V t') : t.columns.isEmpty = t'.columns.isEmpty := by
  rw [Bool.eq_iff_iff, List.isEmpty_iff_length_eq_zero, List.isEmpty_iff_length_eq_zero,
    h.columns.length_eq]

theorem new (name : String) : (Table.new name).Paired V (.new name) := ⟨rfl, rfl, .nil⟩

theorem addColumn (h : t.Paired V t') (hV : SeenAlike b b' V) (hc : c.Paired V c') :
    Agree (Table.Paired V) (t.addColumn b c) (t'.addColumn b' c') := by
  unfold Table.addColumn addColumnWithDefault
  rw [h.hasColumn_eq, hc.name_eq, h.isEmpty_columns, h.size, hc.size_eq, h.hasPredicate_eq]
  split
  · rfl
  · split
    · exact ⟨h.name, rfl, .cons hc .nil⟩
    · dsimp only
      split
      · rfl
      · refine (hc.pad hV .null _).bind fun d d' hd => ?_
        refine (agree_mapM h.columns fun _ _ hx => hx.pad hV .null _).bind fun ds ds' hds => ?_
        exact ⟨h.name, rfl, List.rel_append hds (.cons hd .nil)⟩

theorem addRow (h : t.Paired V t') (hV : SeenAlike b b' V) (hr : r.Paired V r') :
    Agree (Table.Paired V) (t.addRow b r) (t'.addRow b' r') := by
  unfold Table.addRow
  rw [h.hasPredicate_eq, h.size]
  split
  · rfl
  · refine (agree_mapM h.columns fun c c' hc => ?_).bind fun cs cs' hcs => ⟨h.name, rfl, hcs⟩
    rw [← hc.name_eq]
    exact hc.push hV (hr.getD_lookup c.name)

theorem checkRow_eq (h : t.Paired V t') (i : Nat) : t.checkRow i = t'.checkRow i := by
  unfold checkRow
  rw [h.rowCount_eq, h.name]

theorem row (h : t.Paired V t') (i : Nat) : Agree (Row.Paired V) (t.row i) (t'.row i) := by
  unfold Table.row
  rw [h.checkRow_eq]
  refine (agree_eq_iff.2 rfl).bind fun _ _ _ => agree_mapM h.columns fun c c' hc => ?_
  exact (hc.cellAt i).bind fun _ _ hcell => ⟨hc.name_eq, hcell⟩

theorem rows (h : t.Paired V t') : Agree (List.Forall₂ (Row.Paired V)) t.rows t'.rows := by
  unfold Table.rows
  rw [h.rowCount_eq]
  refine agree_mapM (R := Eq) (List.forall₂_eq_eq_eq ▸ rfl) fun i j hij => ?_
  rw [hij]
  exact h.row j

theorem rowCells (h : t.Paired V t') (i : Nat) :
    Agree (List.Forall₂ (Cell.Paired V)) (t.rowCells i) (t'.rowCells i) := by
  unfold Table.rowCells
  rw [h.checkRow_eq]
  refine (agree_eq_iff.2 rfl).bind fun _ _ _ => agree_mapM h.columns fun c c' hc => ?_
  exact hc.cellAt i

theorem duplicate (h : t.Paired V t') : (t.duplicate true).Paired V (t'.duplicate true) where
  name := h.name
  size := congrArg (min · 0) h.size
  columns := by
    show List.Forall₂ _ (t.columns.map _) (t'.columns.map _)
    rw [List.forall₂_map_left_iff, List.forall₂_map_right_iff]
    exact h.columns.imp fun _ _ hc => hc.schema

theorem onlyColumn (h : t.Paired V t') : Agree (Column.Paired V) t.onlyColumn t'.onlyColumn := by
  have hcols := h.columns
  unfold Table.onlyColumn
  generalize t.columns = cs, t'.columns = cs' at hcols ⊢
  cases hcols with
  | nil => rfl
  | cons hc hcs =>
    cases hcs with
    | nil => exact hc
    | cons _ hcs => exact congrArg (fun n => Error.notExactlyOne "column" (n + 2)) hcs.length_eq

theorem project (h : t.Paired V t') (hV : SeenAlike b b' V) (names : List String) :
    Agree (Table.Paired V) (t.project b names) (t'.project b' names) := by
  unfold Table.project
  rw [h.name, h.rowCount_eq]
  refine agree_foldlM (R := Eq) (List.forall₂_eq_eq_eq ▸ rfl) (fun u u' n n' hu hn => ?_) (new _)
  subst hn
  refine hu.addColumn hV ?_
  have hrel := h.column? n
  generalize t.column? n = x, t'.column? n = y at hrel ⊢
  cases hrel with
  | some hc => exact hc
  | none =>
    refine .any n ?_
    rw [Array.toList_replicate]
    exact List.forall₂_same.2 fun cell hcell => by rw [List.eq_of_mem_replicate hcell]; exact .text n

end Table.Paired

/-! ### Sets of tables -/

theorem Dictionary.forall₂_entries {α β : Type} {R : α → β → Prop} {d : Dictionary α}
    {d' : Dictionary β} (h : ∀ k, Option.Rel R (d.get? k) (d'.get? k)) :
    List.Forall₂ (fun e e' => e.1 = e'.1 ∧ R e.2 e'.2) d.entries d'.entries := by
  have hmem : ∀ k, k ∈ d.keys ↔ k ∈ d'.keys := by
    intro k
    have hk := h k
    rw [mem_keys_iff, mem_keys_iff, contains, contains]
    generalize d.get? k = x, d'.get? k = y at hk ⊢
    cases hk <;> exact Iff.rfl
  have hsorted : ∀ {γ : Type} (d : Dictionary γ), d.keys.Pairwise (· < ·) := fun d =>
    List.pairwise_map.2 d.sorted
  have hkeys : d.keys = d'.keys :=
    ((List.perm_ext_iff_of_nodup d.nodup_keys d'.nodup_keys).2 hmem).eq_of_pairwise
      (fun _ _ _ _ hab hba => absurd hba (String.lt_asymm hab)) (hsorted d) (hsorted d')
  have hzip := List.forall₂_iff_zip.1 (List.forall₂_map_left_iff.1 (List.forall₂_map_right_iff.1
    ((List.forall₂_eq_eq_eq (α := String)).symm ▸ hkeys :
      List.Forall₂ Eq (d.entries.map Prod.fst) (d'.entries.map Prod.fst))))
  refine List.forall₂_iff_zip.2 ⟨hzip.1, fun {e e'} he => ?_⟩
  have hname : e.1 = e'.1 := hzip.2 he
  obtain ⟨hl, hr⟩ := List.of_mem_zip he
  have hk := h e.1
  rw [mem_entries_iff.1 hl, hname, mem_entries_iff.1 hr] at hk
  cases hk with
  | some hR => exact ⟨hname, hR⟩

/-- Under each alias there are paired tables, or none. -/
def TableSet.Paired (V : Value → Value → Prop) (s s' : TableSet) : Prop :=
  ∀ name, Option.Rel (Table.Paired V) (s.get? name) (s'.get? name)

namespace TableSet.Paired
variable {s s' : TableSet} {t t' : Table} {name : String}

theorem mono (h : s.Paired V s') (hV : ∀ v v', V v v' → V' v v') : s.Paired V' s' := by
  intro name
  have hrel := h name
  generalize s.get? name = x, s'.get? name = y at hrel ⊢
  cases hrel with
  | none => exact .none
  | some ht => exact .some (ht.mono hV)

theorem empty : TableSet.empty.Paired V .empty := fun _ => .none

theorem erase (h : s.Paired V s') (name : String) :
    (TableSet.mk (s.tables.erase name)).Paired V ⟨s'.tables.erase name⟩ := by
  intro other
  rw [get?_erase, get?_erase]
  split
  · exact .none
  · exact h other

theorem insert (h : s.Paired V s') (ht : t.Paired V t') :
    (TableSet.mk (s.tables.insert t.name t)).Paired V ⟨s'.tables.insert t'.name t'⟩ := by
  intro other
  rw [get?_insert, get?_insert, ht.name]
  split
  · exact .some ht
  · exact h other

theorem table (h : s.Paired V s') (name : String) :
    Agree (Table.Paired V) (s.table name) (s'.table name) := by
  have hrel := h name
  unfold TableSet.table
  unfold TableSet.get? at hrel
  generalize s.tables.get? name = x, s'.tables.get? name = y at hrel ⊢
  cases hrel with
  | none => rfl
  | some ht => exact ht

theorem remove (h : s.Paired V s') (name : String) :
    Agree (fun x y => x.1.Paired V y.1 ∧ x.2.Paired V y.2) (s.remove name) (s'.remove name) := by
  unfold TableSet.remove
  exact (h.table name).bind fun _ _ ht => ⟨ht, h.erase name⟩

theorem add (h : s.Paired V s') (ht : t.Paired V t') :
    Agree (TableSet.Paired V) (s.add t) (s'.add t') := by
  have hrel := h t.name
  rw [add_eq, add_eq, show s'.get? t'.name = s'.get? t.name by rw [ht.name]]
  generalize s.get? t.name = x, s'.get? t.name = y at hrel ⊢
  cases hrel with
  | none => exact h.insert ht
  | some => exact congrArg (Error.duplicateName "table") ht.name

theorem forall₂_values (h : s.Paired V s') :
    List.Forall₂ (Table.Paired V) s.tables.values s'.tables.values := by
  unfold Dictionary.values
  rw [List.forall₂_map_left_iff, List.forall₂_map_right_iff]
  exact (Dictionary.forall₂_entries h).imp fun _ _ he => he.2

theorem onlyTable (h : s.Paired V s') : Agree (Table.Paired V) s.onlyTable s'.onlyTable := by
  have hvalues := h.forall₂_values
  unfold TableSet.onlyTable
  generalize s.tables.values = ts, s'.tables.values = ts' at hvalues ⊢
  cases hvalues with
  | nil => rfl
  | cons ht hts =>
    cases hts with
    | nil => exact ht
    | cons _ hts => exact congrArg (fun n => Error.notExactlyOne "table" (n + 2)) hts.length_eq

end TableSet.Paired

end CodeGraph
