import CodeGraph.Proofs.Registry
import CodeGraph.Proofs.TableView
import CodeGraph.Table.Edit

/-!
# The shape of tables

A table is well formed when its columns have different names and its size, and when either none of them
is a predicate column or all are (`Table.WellFormed`). All operations keep tables well formed. Done in
place, one column after the other, they leave what the operation gives, and a table that they fail on
is left as it was (`Table.settle`): whatever could fail halfway is found out before the first column is
changed. `Edit.edited_wellFormed` puts both together for the tables that any edits lead to.
-/

namespace CodeGraph

namespace Column
variable {b : Bindings} {cell : Cell Ref} {n m : Nat} {c c' c'' : Column} {r row : Row Ref}
  {cs ds : List Column}

/-- `c'` is `c` with so many cells more. -/
structure Grown (n : Nat) (c c' : Column) : Prop where
  name : c'.name = c.name
  isPredicate : c'.isPredicate = c.isPredicate
  size : c'.size = c.size + n

theorem Grown.refl (c : Column) : Grown 0 c c := ⟨rfl, rfl, (Int.add_zero _).symm⟩

theorem Grown.trans (h : Grown n c c') (h' : Grown m c' c'') : Grown (n + m) c c'' :=
  ⟨h'.name.trans h.name, h'.isPredicate.trans h.isPredicate, by rw [h'.size, h.size]; omega⟩

theorem size_of_isPredicate (h : c.isPredicate = true) : c.size = predicateSize := by
  cases c with
  | predicate => rfl
  | data | any => cases h

theorem size_nonneg (h : c.isPredicate = false) : 0 ≤ c.size := by
  cases c with
  | predicate => cases h
  | data | any => exact Int.natCast_nonneg _

theorem exists_push (h : c.isPredicate = false) (b : Bindings) (cell : Cell Ref) :
    ∃ c', c.push b cell = .ok c' ∧ Grown 1 c c' := by
  cases c with
  | predicate => cases h
  | data d =>
    refine ⟨_, rfl, rfl, rfl, ?_⟩
    show ((d.cells.push cell).size : Int) = d.cells.size + 1
    rw [Array.size_push]
    rfl
  | any name cells =>
    refine ⟨_, rfl, rfl, rfl, ?_⟩
    show ((cells.push cell).size : Int) = cells.size + 1
    rw [Array.size_push]
    rfl

theorem exists_pad (h : c.isPredicate = false) (b : Bindings) (cell : Cell Ref) (n : Nat) :
    ∃ c', c.pad b cell n = .ok c' ∧ Grown n c c' := by
  induction n generalizing c with
  | zero => exact ⟨c, rfl, .refl c⟩
  | succ n ih =>
    obtain ⟨c₁, hpush, h₁⟩ := exists_push h b cell
    obtain ⟨c₂, hpad, h₂⟩ := ih (h₁.isPredicate.trans h)
    refine ⟨c₂, ?_, Nat.add_comm 1 n ▸ h₁.trans h₂⟩
    rw [pad, hpush, ok_bind, hpad]

theorem pad_of_isPredicate (h : c.isPredicate = true) (hc : c.pad b cell n = .ok c') : n = 0 ∧ c' = c := by
  cases c with
  | data | any => cases h
  | predicate name accepts =>
    cases n with
    | zero => exact ⟨rfl, (Except.ok.inj hc).symm⟩
    | succ n => cases hc

theorem grown_of_pad (hc : c.pad b cell n = .ok c') : Grown n c c' := by
  cases hp : c.isPredicate with
  | true =>
    obtain ⟨rfl, rfl⟩ := pad_of_isPredicate hp hc
    exact .refl c'
  | false =>
    obtain ⟨d, hd, hg⟩ := exists_pad hp b cell n
    cases hd.symm.trans hc
    exact hg

theorem grown_of_push (hc : c.push b cell = .ok c') : Grown 1 c c' := by
  have hpad : c.pad b cell 1 = .ok c' := by
    rw [pad, hc]
    rfl
  exact grown_of_pad hpad

theorem name_duplicate (c : Column) (schemaOnly : Bool) : (c.duplicate schemaOnly).name = c.name := by
  cases schemaOnly <;> cases c <;> rfl

theorem isPredicate_duplicate (c : Column) (schemaOnly : Bool) :
    (c.duplicate schemaOnly).isPredicate = c.isPredicate := by
  cases schemaOnly <;> cases c <;> rfl

theorem size_duplicate_true (c : Column) : (c.duplicate true).size = min c.size 0 := by
  cases c with
  | predicate => rfl
  | data | any => exact (Int.min_eq_right (Int.natCast_nonneg _)).symm

/-! ### Columns changed in place -/

theorem extend_of_push (h : c.push b cell = .ok c') : c.extend b cell = (.ok (), c') := by
  unfold extend
  rw [h]

theorem extendBy_of_pad (h : c.pad b cell n = .ok c') : c.extendBy b cell n = (.ok (), c') := by
  induction n generalizing c with
  | zero => exact congrArg (Prod.mk _) (Except.ok.inj h)
  | succ n ih =>
    rw [pad] at h
    cases hpush : c.push b cell with
    | error e =>
      rw [hpush] at h
      cases h
    | ok c₁ =>
      rw [hpush, ok_bind] at h
      rw [extendBy, extend_of_push hpush]
      exact ih h

theorem editEach_cons {ρ : Type} {step : ρ → Column → Except Error ρ × Column} {x y z : ρ}
    (h : step x c = (.ok y, c')) (hs : editEach step y cs = (.ok z, ds)) :
    editEach step x (c :: cs) = (.ok z, c' :: ds) := by
  rw [editEach, h]
  show ((editEach step y cs).1, c' :: (editEach step y cs).2) = _
  rw [hs]

theorem editEach_extendBy (h : List.Forall₂ (fun c d => c.pad b cell n = .ok d) cs ds) :
    editEach (fun () => extendBy b cell n) () cs = (.ok (), ds) := by
  induction h with
  | nil => rfl
  | cons hpad _ ih => exact editEach_cons (extendBy_of_pad hpad) ih

theorem editEach_extendFrom (hn : (cs.map name).Nodup)
    (hrow : ∀ c ∈ cs, row.lookup c.name = r.lookup c.name)
    (h : List.Forall₂ (fun c d => c.push b ((r.lookup c.name).getD .null) = .ok d) cs ds) :
    ∃ left, editEach (extendFrom b) row cs = (.ok left, ds) := by
  induction h generalizing row with
  | nil => exact ⟨row, rfl⟩
  | @cons c d cs ds hpush _ ih =>
    obtain ⟨hc, hcs⟩ := List.forall_mem_cons.1 hrow
    obtain ⟨hnew, hn⟩ := List.nodup_cons.1 hn
    have hstep : extendFrom b row c = (.ok (row.filter (·.1 ≠ c.name)), d) := by
      unfold extendFrom
      rw [hc, extend_of_push hpush]
    have hrest : ∀ c' ∈ cs, (row.filter (·.1 ≠ c.name)).lookup c'.name = r.lookup c'.name := by
      intro c' hc'
      have hne : c'.name ≠ c.name := fun he => hnew (List.mem_map.2 ⟨c', hc', he⟩)
      rw [lookup_filter_ne row hne]
      exact hcs c' hc'
    obtain ⟨left, hleft⟩ := ih hn hrest
    exact ⟨left, editEach_cons hstep hleft⟩

end Column

namespace Table
variable {α : Type} {b : Bindings} {t t' : Table} {c : Column} {default : Cell Ref} {r : Row Ref}

/-- Different names, one size, and no predicate column beside one that holds cells. -/
structure WellFormed (t : Table) : Prop where
  distinct : t.headers.Nodup
  even : ∀ c ∈ t.columns, c.size = t.size
  kind : (t.hasPredicate = false ∧ 0 ≤ t.size) ∨
    (t.columns ≠ [] ∧ (∀ c ∈ t.columns, c.isPredicate = true) ∧ t.size = predicateSize)

/-- What an operation gives back and leaves that fails as a whole or not at all. -/
def settle (t : Table) : Except Error (α × Table) → Except Error α × Table
  | .ok (x, t') => (.ok x, t')
  | .error e => (.error e, t)

theorem hasPredicate_eq_false_iff : t.hasPredicate = false ↔ ∀ c ∈ t.columns, c.isPredicate = false := by
  unfold hasPredicate
  rw [List.any_eq_false]
  exact forall₂_congr fun _ _ => iff_of_eq (Bool.not_eq_true _)

theorem lacking_nonneg (t : Table) (c : Column) : 0 ≤ t.lacking c :=
  Int.sub_nonneg_of_le (Int.le_max_right ..)

theorem missing_nonneg (t : Table) (c : Column) : 0 ≤ t.missing c :=
  Int.sub_nonneg_of_le (Int.le_max_left ..)

/-- If a predicate column would have to be padded, no column is. -/
theorem exists_padded (b : Bindings) (default : Cell Ref)
    (h : ¬(t.size < max t.size c.size ∧ t.hasPredicate = true)) :
    ∃ ds, List.Forall₂ (fun c' d => c'.pad b default (t.missing c).toNat = .ok d) t.columns ds := by
  refine exists_forall₂ fun c' hc' => ?_
  cases hp : t.hasPredicate with
  | false =>
    obtain ⟨d, hd, -⟩ := Column.exists_pad (hasPredicate_eq_false_iff.1 hp c' hc') b default
      (t.missing c).toNat
    exact ⟨d, hd⟩
  | true =>
    have hzero : (t.missing c).toNat = 0 := by
      have hle : max t.size c.size ≤ t.size := Int.not_lt.1 fun hlt => h ⟨hlt, hp⟩
      unfold missing
      omega
    exact ⟨c', by rw [hzero]; rfl⟩

theorem exists_pushed (hp : t.hasPredicate = false) (b : Bindings) (r : Row Ref) :
    ∃ ds, List.Forall₂ (fun c d => c.push b ((r.lookup c.name).getD .null) = .ok d) t.columns ds := by
  refine exists_forall₂ fun c hc => ?_
  obtain ⟨d, hd, -⟩ := Column.exists_push (hasPredicate_eq_false_iff.1 hp c hc) b _
  exact ⟨d, hd⟩

theorem editColumns_of_ok {ρ : Type} {step : ρ → Column → Except Error ρ × Column} {x y : ρ}
    {ds : List Column} (h : Column.editEach step x t.columns = (.ok y, ds)) :
    (editColumns step x).run.run t = (.ok y, { t with columns := ds }) := by
  show ((Column.editEach step x t.columns).1, { t with columns := (Column.editEach step x t.columns).2 }) = _
  rw [h]

theorem run_insertColumn (b : Bindings) (t : Table) (c : Column) (default : Cell Ref) :
    (insertColumn b c default).run.run t =
      t.settle ((t.addColumnWithDefault b c default).map fun t' => ((), t')) := by
  unfold addColumnWithDefault insertColumn
  show (ite _ _ _ : Editing Table Unit).run.run t = _
  by_cases hname : t.hasColumn c.name = true
  · rw [if_pos hname, if_pos hname]
    rfl
  · rw [if_neg hname, if_neg hname]
    by_cases hempty : t.columns.isEmpty = true
    · rw [if_pos hempty, if_pos hempty]
      rfl
    · rw [if_neg hempty, if_neg hempty]
      dsimp only
      by_cases hpred : t.size < max t.size c.size ∧ t.hasPredicate = true
      · rw [if_pos hpred, if_pos hpred]
        rfl
      · rw [if_neg hpred, if_neg hpred]
        obtain ⟨ds, hds⟩ := exists_padded b default hpred
        have hcols : t.columns.mapM (Column.pad b default (max t.size c.size - t.size).toNat) = .ok ds :=
          mapM_eq_ok_of_forall₂ hds
        rw [hcols]
        cases hc : c.pad b default (t.lacking c).toNat with
        | error e =>
          rw [show c.pad b default (max t.size c.size - c.size).toNat = .error e from hc]
          rfl
        | ok c' =>
          rw [show c.pad b default (max t.size c.size - c.size).toNat = .ok c' from hc]
          show (editColumns _ () >>= _ : Editing Table Unit).run.run t = _
          rw [ExceptT.run_bind, StateT.run_bind, editColumns_of_ok (Column.editEach_extendBy hds)]
          rfl

theorem run_dropColumn (t : Table) (name : String) :
    (dropColumn name).run.run t = t.settle (t.removeColumn name) := by
  unfold dropColumn removeColumn
  cases hc : t.column name with
  | error e =>
    show (liftM (t.column name) >>= _ : Editing Table Column).run.run t = _
    rw [hc]
    rfl
  | ok c =>
    show (liftM (t.column name) >>= _ : Editing Table Column).run.run t = _
    rw [hc]
    show ((Except.ok c : Except Error Column),
      if (t.columns.eraseP (·.name == name)).isEmpty then _ else _) = (Except.ok c, Table.mk _ _ _)
    split <;> rfl

theorem run_appendRow (hn : t.headers.Nodup) (b : Bindings) (r : Row Ref) :
    (appendRow b r).run.run t = t.settle ((t.addRow b r).map fun t' => ((), t')) := by
  unfold appendRow
  show (ite _ _ _ : Editing Table Unit).run.run t = _
  cases hp : t.hasPredicate with
  | true =>
    unfold addRow
    rw [if_pos rfl, hp, if_pos rfl]
    rfl
  | false =>
    obtain ⟨ds, hds⟩ := exists_pushed hp b r
    obtain ⟨left, hleft⟩ := Column.editEach_extendFrom hn (fun _ _ => rfl) hds
    rw [if_neg Bool.false_ne_true, addRow_eq_ok hds]
    show (editColumns _ r >>= _ : Editing Table Unit).run.run t = _
    rw [ExceptT.run_bind, StateT.run_bind, editColumns_of_ok hleft]
    rfl

/-! ### Well-formed tables -/

theorem wellFormed_new (name : String) : (new name).WellFormed :=
  ⟨.nil, fun _ hc => absurd hc List.not_mem_nil, Or.inl ⟨rfl, Int.le_refl _⟩⟩

theorem wellFormed_ofColumn (name : String) (c : Column) : (ofColumn name c).WellFormed := by
  refine ⟨List.pairwise_singleton .., fun c' hc' => ?_, ?_⟩
  · rw [List.mem_singleton.1 hc']
    rfl
  · cases hp : c.isPredicate with
    | false =>
      refine Or.inl ⟨hasPredicate_eq_false_iff.2 fun c' hc' => ?_, Column.size_nonneg hp⟩
      rw [List.mem_singleton.1 hc']
      exact hp
    | true =>
      refine Or.inr ⟨List.cons_ne_nil _ _, fun c' hc' => ?_, Column.size_of_isPredicate hp⟩
      rw [List.mem_singleton.1 hc']
      exact hp

theorem addColumnWithDefault_eq_ok (hok : t.addColumnWithDefault b c default = .ok t') :
    c.name ∉ t.headers ∧
      ((t.columns = [] ∧ t' = { t with size := c.size, columns := [c] }) ∨
        (t.columns ≠ [] ∧ (t.size < max t.size c.size → t.hasPredicate = false) ∧ ∃ c' ds,
          c.pad b default (t.lacking c).toNat = .ok c' ∧
          List.Forall₂ (fun x d => x.pad b default (t.missing c).toNat = .ok d) t.columns ds ∧
          t' = { t with size := max t.size c.size, columns := ds ++ [c'] })) := by
  unfold addColumnWithDefault at hok
  rw [hasColumn_eq_decide] at hok
  split at hok
  · cases hok
  · next hname =>
    refine ⟨fun hin => hname (decide_eq_true hin), ?_⟩
    split at hok
    · next hempty => exact Or.inl ⟨List.isEmpty_iff.1 hempty, (Except.ok.inj hok).symm⟩
    · next hempty =>
      refine Or.inr ⟨fun hnil => hempty (List.isEmpty_iff.2 hnil), ?_⟩
      dsimp only at hok
      split at hok
      · cases hok
      · next hpred =>
        refine ⟨fun hlt => Bool.eq_false_iff.2 fun hp => hpred ⟨hlt, hp⟩, ?_⟩
        obtain ⟨ds, hds⟩ := exists_padded b default hpred
        have hcols : t.columns.mapM (Column.pad b default (max t.size c.size - t.size).toNat) = .ok ds :=
          mapM_eq_ok_of_forall₂ hds
        rw [hcols] at hok
        cases hc : c.pad b default (max t.size c.size - c.size).toNat with
        | error e =>
          rw [hc] at hok
          cases hok
        | ok c' =>
          rw [hc] at hok
          exact ⟨c', ds, hc, hds, (Except.ok.inj hok).symm⟩

theorem exists_of_addRow (hok : t.addRow b r = .ok t') :
    t.hasPredicate = false ∧ ∃ ds,
      List.Forall₂ (fun c d => c.push b ((r.lookup c.name).getD .null) = .ok d) t.columns ds ∧
      t' = { t with size := t.size + 1, columns := ds } := by
  cases hp : t.hasPredicate with
  | true =>
    unfold addRow at hok
    rw [hp, if_pos rfl] at hok
    cases hok
  | false =>
    obtain ⟨ds, hds⟩ := exists_pushed hp b r
    rw [addRow_eq_ok hds] at hok
    exact ⟨rfl, ds, hds, (Except.ok.inj hok).symm⟩

theorem not_isPredicate_of_padded (hsize : 0 ≤ t.size)
    (hc : c.pad b default (t.lacking c).toNat = .ok c') : c.isPredicate = false := by
  refine Bool.eq_false_iff.2 fun hp => ?_
  have hzero := (Column.pad_of_isPredicate hp hc).1
  have hcsize := Column.size_of_isPredicate hp
  unfold lacking at hzero
  unfold predicateSize at hcsize
  omega

theorem isPredicate_of_size_le (hsize : t.size = predicateSize) (hle : c.size ≤ t.size) :
    c.isPredicate = true := by
  cases hp : c.isPredicate with
  | true => rfl
  | false =>
    have := Column.size_nonneg hp
    unfold predicateSize at hsize
    omega

section Grown
variable {n : Nat} {ds : List Column}

theorem headers_of_grown (hds : List.Forall₂ (Column.Grown n) t.columns ds) :
    ds.map Column.name = t.headers :=
  map_eq_map_of_forall₂ (hds.flip.imp fun _ _ hd => hd.name)

theorem size_of_grown (hds : List.Forall₂ (Column.Grown n) t.columns ds) (h : t.WellFormed) :
    ∀ d ∈ ds, d.size = t.size + n := by
  intro d hd
  obtain ⟨x, hx, hg⟩ := exists_mem_of_forall₂ hds d hd
  rw [hg.size, h.even x hx]

theorem isPredicate_of_grown {p : Bool} (hds : List.Forall₂ (Column.Grown n) t.columns ds)
    (hp : ∀ x ∈ t.columns, x.isPredicate = p) : ∀ d ∈ ds, d.isPredicate = p := by
  intro d hd
  obtain ⟨x, hx, hg⟩ := exists_mem_of_forall₂ hds d hd
  rw [hg.isPredicate, hp x hx]

end Grown

namespace WellFormed

theorem renamed (h : t.WellFormed) (name : String) : (t.renamed name).WellFormed :=
  ⟨h.distinct, h.even, h.kind⟩

theorem addColumnWithDefault (h : t.WellFormed) (hok : t.addColumnWithDefault b c default = .ok t') :
    t'.WellFormed := by
  obtain ⟨hnew, ⟨hnil, rfl⟩ | ⟨hne, hpred, c', ds, hc, hds, rfl⟩⟩ := addColumnWithDefault_eq_ok hok
  · have hone := wellFormed_ofColumn t.name c
    exact ⟨hone.distinct, hone.even, hone.kind⟩
  have hgrown := Column.grown_of_pad hc
  replace hds := hds.imp fun _ _ => Column.grown_of_pad
  have hkind {p : Bool} (hall : ∀ x ∈ t.columns, x.isPredicate = p) (hp : c.isPredicate = p) :
      ∀ d ∈ ds ++ [c'], d.isPredicate = p :=
    List.forall_mem_append.2
      ⟨isPredicate_of_grown hds hall, List.forall_mem_singleton.2 (hgrown.isPredicate.trans hp)⟩
  refine ⟨?_, List.forall_mem_append.2 ⟨fun d hd => ?_, List.forall_mem_singleton.2 ?_⟩, ?_⟩
  · show ((ds ++ [c']).map Column.name).Nodup
    rw [List.map_append, headers_of_grown hds, List.map_singleton, hgrown.name]
    refine List.nodup_append.2 ⟨h.distinct, List.pairwise_singleton .., fun x hx y hy he => hnew ?_⟩
    rwa [← List.mem_singleton.1 hy, ← he]
  · rw [size_of_grown hds h d hd, Int.toNat_of_nonneg (t.missing_nonneg c)]
    exact (Int.add_comm ..).trans (Int.sub_add_cancel ..)
  · rw [hgrown.size, Int.toNat_of_nonneg (t.lacking_nonneg c)]
    exact (Int.add_comm ..).trans (Int.sub_add_cancel ..)
  · rcases h.kind with ⟨hno, hsize⟩ | ⟨-, hall, hsize⟩
    · exact Or.inl ⟨hasPredicate_eq_false_iff.2
        (hkind (hasPredicate_eq_false_iff.1 hno) (not_isPredicate_of_padded hsize hc)),
        Int.le_trans hsize (Int.le_max_left ..)⟩
    · have hle : max t.size c.size ≤ t.size := by
        obtain ⟨x, hx⟩ := List.exists_mem_of_ne_nil _ hne
        refine Int.not_lt.1 fun hlt => ?_
        cases (hall x hx).symm.trans (hasPredicate_eq_false_iff.1 (hpred hlt) x hx)
      exact Or.inr ⟨List.append_ne_nil_of_right_ne_nil _ (List.cons_ne_nil _ _),
        hkind hall (isPredicate_of_size_le hsize (Int.le_trans (Int.le_max_right ..) hle)),
        (Int.le_antisymm hle (Int.le_max_left ..)).trans hsize⟩

theorem removeColumn (h : t.WellFormed) {name : String} (hok : t.removeColumn name = .ok (c, t')) :
    t'.WellFormed := by
  unfold Table.removeColumn at hok
  cases hc : t.column name with
  | error e =>
    rw [hc] at hok
    cases hok
  | ok c₀ =>
    rw [hc] at hok
    cases hok
    have hsub : (t.columns.eraseP (·.name == name)).Sublist t.columns := List.eraseP_sublist
    refine ⟨h.distinct.sublist (hsub.map _), fun d hd => ?_, ?_⟩
    · show d.size = if _ then 0 else t.size
      rw [if_neg fun he => List.ne_nil_of_mem hd (List.isEmpty_iff.1 he)]
      exact h.even d (hsub.subset hd)
    · show (_ ∧ 0 ≤ if _ then 0 else t.size) ∨ (_ ∧ _ ∧ (if _ then 0 else t.size) = predicateSize)
      split
      · next hempty =>
        refine Or.inl ⟨hasPredicate_eq_false_iff.2 fun d hd => ?_, Int.le_refl _⟩
        exact absurd (List.isEmpty_iff.1 hempty) (List.ne_nil_of_mem hd)
      · next hne =>
        refine h.kind.imp (fun hk => ⟨?_, hk.2⟩) fun hk => ⟨fun hnil => hne (List.isEmpty_iff.2 hnil),
          fun d hd => hk.2.1 d (hsub.subset hd), hk.2.2⟩
        exact hasPredicate_eq_false_iff.2 fun d hd =>
          hasPredicate_eq_false_iff.1 hk.1 d (hsub.subset hd)

theorem addRow (h : t.WellFormed) (hok : t.addRow b r = .ok t') : t'.WellFormed := by
  obtain ⟨hp, ds, hds, rfl⟩ := exists_of_addRow hok
  replace hds := hds.imp fun _ _ => Column.grown_of_push
  refine ⟨?_, size_of_grown hds h, Or.inl ⟨hasPredicate_eq_false_iff.2
    (isPredicate_of_grown hds (hasPredicate_eq_false_iff.1 hp)), ?_⟩⟩
  · show (ds.map Column.name).Nodup
    rw [headers_of_grown hds]
    exact h.distinct
  · rcases h.kind with ⟨-, hsize⟩ | ⟨-, -, hsize⟩
    · exact Int.add_nonneg hsize Int.one_nonneg
    · show 0 ≤ t.size + 1
      rw [hsize]
      exact Int.le_refl 0

theorem duplicate (h : t.WellFormed) (schemaOnly : Bool) : (t.duplicate schemaOnly).WellFormed := by
  have hsize : (t.duplicate schemaOnly).size = if schemaOnly then min t.size 0 else t.size := rfl
  refine ⟨?_, fun d hd => ?_, ?_⟩
  · show ((t.columns.map (·.duplicate schemaOnly)).map Column.name).Nodup
    rw [List.map_map, List.map_congr_left fun c _ => c.name_duplicate schemaOnly]
    exact h.distinct
  · obtain ⟨c, hc, rfl⟩ := List.mem_map.1 hd
    rw [hsize, ← h.even c hc]
    cases schemaOnly with
    | true => exact c.size_duplicate_true
    | false => rfl
  · refine h.kind.imp (fun hk => ⟨hasPredicate_eq_false_iff.2 fun d hd => ?_, ?_⟩)
      fun hk => ⟨mt List.map_eq_nil_iff.1 hk.1, fun d hd => ?_, ?_⟩
    · obtain ⟨c, hc, rfl⟩ := List.mem_map.1 hd
      rw [c.isPredicate_duplicate]
      exact hasPredicate_eq_false_iff.1 hk.1 c hc
    · rw [hsize]
      split
      · exact Int.le_min.2 ⟨hk.2, Int.le_refl 0⟩
      · exact hk.2
    · obtain ⟨c, hc, rfl⟩ := List.mem_map.1 hd
      rw [c.isPredicate_duplicate]
      exact hk.2.1 c hc
    · rw [hsize, hk.2.2]
      cases schemaOnly <;> rfl

end WellFormed

end Table

namespace Edit
variable {t t' : Table} {e : Edit} {x : Option Column}

/-- What an edit gives back and the table it makes, as an operation that leaves its table alone. -/
def apply (t : Table) : Edit → Except Error (Option Column × Table)
  | new name => .ok (none, .new name)
  | ofColumn name c => .ok (none, .ofColumn name c)
  | addColumn b c => (t.addColumn b c).map fun t' => (none, t')
  | addColumnWithDefault b c default => (t.addColumnWithDefault b c default).map fun t' => (none, t')
  | removeColumn name => (t.removeColumn name).map fun (c, t') => (some c, t')
  | addRow b r => (t.addRow b r).map fun t' => (none, t')
  | rename name => .ok (none, t.renamed name)
  | duplicate schemaOnly => .ok (none, t.duplicate schemaOnly)

/-- An edit in place leaves what the operation makes, and if it fails, the table that it was given. -/
theorem run_eq_settle (hn : t.headers.Nodup) (e : Edit) : e.run.run.run t = t.settle (e.apply t) := by
  -- what an edit gives back is put behind what it does in place
  have hnone {m : Editing Table Unit} {out : Except Error Table}
      (h : m.run.run t = t.settle (out.map fun t' => ((), t'))) :
      (m >>= fun _ => pure none : Editing Table (Option Column)).run.run t =
        t.settle (out.map fun t' => (none, t')) := by
    rw [ExceptT.run_bind, StateT.run_bind, h]
    cases out <;> rfl
  cases e with
  | new name => rfl
  | ofColumn name c => rfl
  | addColumn b c => exact hnone (t.run_insertColumn b c .null)
  | addColumnWithDefault b c default => exact hnone (t.run_insertColumn b c default)
  | removeColumn name =>
    show (Table.dropColumn name >>= _ : Editing Table (Option Column)).run.run t =
      t.settle ((t.removeColumn name).map fun (c, t') => (some c, t'))
    rw [ExceptT.run_bind, StateT.run_bind, t.run_dropColumn name]
    cases t.removeColumn name <;> rfl
  | addRow b r => exact hnone (Table.run_appendRow hn b r)
  | rename name => rfl
  | duplicate schemaOnly => rfl

theorem wellFormed_of_apply (h : t.WellFormed) (hok : e.apply t = .ok (x, t')) : t'.WellFormed := by
  have hof {out : Except Error Table} (hok : (out.map fun t' => ((none : Option Column), t')) = .ok (x, t')) :
      out = .ok t' := by
    cases out with
    | error e => cases hok
    | ok t'' =>
      cases hok
      rfl
  cases e with
  | new name =>
    cases hok
    exact Table.wellFormed_new name
  | ofColumn name c =>
    cases hok
    exact Table.wellFormed_ofColumn name c
  | addColumn b c => exact h.addColumnWithDefault (hof hok)
  | addColumnWithDefault b c default => exact h.addColumnWithDefault (hof hok)
  | removeColumn name =>
    change (t.removeColumn name).map (fun (c, t') => (some c, t')) = .ok (x, t') at hok
    cases hc : t.removeColumn name with
    | error e =>
      rw [hc] at hok
      cases hok
    | ok out =>
      rw [hc] at hok
      cases hok
      exact h.removeColumn hc
  | addRow b r => exact h.addRow (hof hok)
  | rename name =>
    cases hok
    exact h.renamed name
  | duplicate schemaOnly =>
    cases hok
    exact h.duplicate schemaOnly

theorem wellFormed_run (h : t.WellFormed) (e : Edit) : (e.run.run.run t).2.WellFormed := by
  rw [run_eq_settle h.distinct]
  cases hout : e.apply t with
  | error err => exact h
  | ok out => exact wellFormed_of_apply h hout

theorem wellFormed_runAll (h : t.WellFormed) (edits : List Edit) : (runAll edits t).WellFormed := by
  unfold runAll
  induction edits generalizing t with
  | nil => exact h
  | cons e edits ih => exact ih (wellFormed_run h e)

/-- Whatever edits lead to a table, it is well formed, no count of cells to pad with is negative, and
any further edit leaves what the operation makes or, if it fails, the table as it was. -/
theorem edited_wellFormed (name : String) (edits : List Edit) :
    ∃ t, runAll edits (.new name) = t ∧ t.WellFormed ∧
      (∀ c, 0 ≤ t.lacking c ∧ 0 ≤ t.missing c) ∧
      (∀ e : Edit, e.run.run.run t = t.settle (e.apply t)) ∧
      ∀ (e : Edit) (err : Error) (t' : Table), e.run.run.run t = (.error err, t') → t' = t := by
  have h : (runAll edits (.new name)).WellFormed := wellFormed_runAll (Table.wellFormed_new name) edits
  refine ⟨_, rfl, h, fun c => ⟨Table.lacking_nonneg _ c, Table.missing_nonneg _ c⟩,
    run_eq_settle h.distinct, fun e err t' hfail => ?_⟩
  rw [run_eq_settle h.distinct] at hfail
  cases hout : e.apply (runAll edits (.new name)) with
  | error err' =>
    rw [hout] at hfail
    exact (congrArg Prod.snd hfail).symm
  | ok out =>
    rw [hout] at hfail
    cases congrArg Prod.fst hfail

end Edit

end CodeGraph
