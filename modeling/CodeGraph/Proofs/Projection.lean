import CodeGraph.Proofs.EmptyColumn
import CodeGraph.Proofs.FailedSelection
import CodeGraph.Proofs.Replacing
import CodeGraph.Proofs.TableShape
import Mathlib.Data.List.Nodup

/-!
# What a selection gives

A projection puts the columns of a table side by side by adding them one after the other, and adding a
column may pad it or the others, or refuse it. In a well-formed table all columns have one size, and a
literal is filled up to it, so nothing is padded as long as predicate columns keep to themselves:
either the columns come out as they were picked, or a name comes twice, or a predicate column is asked
for beside something else (`Table.project_eq_ok_iff`). `Query.select_projects_only_table` says so of
the stage.
-/

namespace CodeGraph

namespace TableSet
variable {s : TableSet} {t : Table}

def Only (s : TableSet) (t : Table) : Prop := ∃ x, ∀ y, s.get? y = if y = x then some t else none

theorem onlyTable_eq_ok_iff : s.onlyTable = .ok t ↔ s.Only t := by
  refine ⟨fun h => ?_, fun ⟨x, h⟩ => onlyTable_of_get? h⟩
  obtain ⟨⟨es, hs⟩⟩ := s
  have hes : es.map Prod.snd = [t] := by
    unfold onlyTable at h
    split at h
    · next t' hvalues =>
      cases h
      exact hvalues
    · cases h
  obtain ⟨⟨x, t'⟩, rfl, rfl⟩ := List.map_eq_singleton_iff.1 hes
  exact ⟨x, fun y => Dictionary.lookup_cons_ite (x, t') [] y⟩

end TableSet

namespace Table
variable {b : Bindings} {t r : Table} {n x : String} {names done : List String} {c : Column}

/-- Some operations of the library, of which any may have failed, have made the table. -/
def Built (t : Table) : Prop := ∃ name edits, Edit.runAll edits (.new name) = t

theorem Built.wellFormed (h : t.Built) : t.WellFormed := by
  obtain ⟨name, edits, rfl⟩ := h
  exact Edit.wellFormed_runAll (wellFormed_new name) edits

/-- The name is that of a predicate column. -/
def NamesPredicate (t : Table) (n : String) : Prop := ∃ c, t.column? n = some c ∧ c.isPredicate = true

/-- No name of a predicate column stands beside a name of another kind. -/
def Unmixed (t : Table) (names : List String) : Prop :=
  (∀ n ∈ names, t.NamesPredicate n) ∨ ∀ n ∈ names, ¬ t.NamesPredicate n

/-- The column that a projection adds for a name. -/
def picked (t : Table) (n : String) : Column := (t.column? n).getD (.filled n (.text n) t.rowCount)

def projected (t : Table) (names : List String) : Table :=
  ⟨t.name, (names.head?.map fun n => (t.picked n).size).getD 0, names.map t.picked⟩

theorem name_of_column? (h : t.column? n = some c) : c.name = n :=
  beq_iff_eq.1 (List.find?_some (p := fun c : Column => c.name == n) h)

theorem name_picked (t : Table) (n : String) : (t.picked n).name = n := by
  unfold picked
  cases h : t.column? n with
  | none => rfl
  | some c => exact name_of_column? h

theorem isPredicate_picked : (t.picked n).isPredicate = true ↔ t.NamesPredicate n := by
  unfold picked NamesPredicate
  cases t.column? n <;> simp [Column.filled, Column.isPredicate]

theorem size_picked_of_not (h : t.WellFormed) (hn : ¬ t.NamesPredicate n) :
    (t.picked n).size = t.rowCount := by
  have hkind := Bool.eq_false_iff.2 (mt isPredicate_picked.1 hn)
  unfold picked at hkind ⊢
  cases hc : t.column? n with
  | none =>
    show ((Array.replicate t.rowCount (Cell.text n : Cell Ref)).size : Int) = t.rowCount
    rw [Array.size_replicate]
  | some c =>
    rw [hc] at hkind
    have hsize : c.size = t.size := h.even c (List.mem_of_find?_eq_some hc)
    have hnonneg : 0 ≤ c.size := Column.size_nonneg hkind
    show c.size = (t.size.toNat : Int)
    omega

theorem size_picked (h : t.WellFormed) (hu : t.Unmixed names) (hn : n ∈ names) (hx : x ∈ names) :
    (t.picked n).size = (t.picked x).size := by
  rcases hu with hall | hnone
  · rw [Column.size_of_isPredicate (isPredicate_picked.2 (hall n hn)),
      Column.size_of_isPredicate (isPredicate_picked.2 (hall x hx))]
  · rw [size_picked_of_not h (hnone n hn), size_picked_of_not h (hnone x hx)]

theorem size_projected (h : t.WellFormed) (hu : t.Unmixed names) (hn : n ∈ names) :
    (t.projected names).size = (t.picked n).size := by
  cases names with
  | nil => cases hn
  | cons m names => exact size_picked h hu (List.mem_cons_self ..) hn

theorem headers_projected (t : Table) (names : List String) : (t.projected names).headers = names := by
  show (names.map t.picked).map Column.name = names
  rw [List.map_map]
  exact (List.map_congr_left fun n _ => t.name_picked n).trans (List.map_id _)

theorem column?_projected (t : Table) (hn : n ∈ names) :
    (t.projected names).column? n = some (t.picked n) := by
  show (names.map t.picked).find? (·.name == n) = some (t.picked n)
  induction names with
  | nil => cases hn
  | cons m names ih =>
    rw [List.map_cons, List.find?_cons, t.name_picked m]
    by_cases hm : m = n
    · rw [hm, beq_self_eq_true]
    · rw [beq_false_of_ne hm]
      exact ih ((List.mem_cons.1 hn).resolve_left (Ne.symm hm))

theorem unmixed_of_append (hu : t.Unmixed (done ++ [n])) : t.Unmixed done :=
  hu.imp (fun h m hm => h m (List.mem_append_left _ hm)) fun h m hm => h m (List.mem_append_left _ hm)

/-! ### One column more -/

theorem unmixed_of_addColumn (h : t.WellFormed) (hu : t.Unmixed done)
    (hok : (t.projected done).addColumn b (t.picked n) = .ok r) : t.Unmixed (done ++ [n]) := by
  obtain ⟨-, ⟨hnil, -⟩ | ⟨hne, hpred, c', ds, hpad, -, -⟩⟩ := addColumnWithDefault_eq_ok hok
  · rw [List.map_eq_nil_iff.1 hnil]
    by_cases hn : t.NamesPredicate n
    · exact Or.inl (List.forall_mem_singleton.2 hn)
    · exact Or.inr (List.forall_mem_singleton.2 hn)
  obtain ⟨m, hm⟩ := List.exists_mem_of_ne_nil done (mt List.map_eq_nil_iff.2 hne)
  have hsize := size_projected h hu hm
  rcases hu with hall | hnone
  · refine Or.inl (List.forall_mem_append.2 ⟨hall, List.forall_mem_singleton.2 ?_⟩)
    by_contra hn
    have hkind : (t.projected done).hasPredicate = true :=
      List.any_eq_true.2 ⟨_, List.mem_map_of_mem hm, isPredicate_picked.2 (hall m hm)⟩
    have hshort : (t.projected done).size < (t.picked n).size := by
      rw [hsize, Column.size_of_isPredicate (isPredicate_picked.2 (hall m hm)), size_picked_of_not h hn]
      unfold predicateSize
      omega
    rw [hpred (Int.lt_of_lt_of_le hshort (Int.le_max_right ..))] at hkind
    cases hkind
  · refine Or.inr (List.forall_mem_append.2 ⟨hnone, List.forall_mem_singleton.2 fun hn => ?_⟩)
    have hnonneg : 0 ≤ (t.projected done).size := by
      rw [hsize, size_picked_of_not h (hnone m hm)]
      exact Int.natCast_nonneg _
    cases (isPredicate_picked.2 hn).symm.trans (not_isPredicate_of_padded hnonneg hpad)

/-- A column of the kind of the others has their size, and comes to them as it is. -/
theorem addColumn_projected (h : t.WellFormed) (hu : t.Unmixed (done ++ [n])) :
    (t.projected done).addColumn b (t.picked n) =
      if n ∈ done then .error (.duplicateName "column" n) else .ok (t.projected (done ++ [n])) := by
  cases done with
  | nil => rfl
  | cons m done =>
    have hsize : (t.picked n).size = (t.projected (m :: done)).size :=
      size_picked h hu (List.mem_append_right _ (List.mem_singleton_self n)) (List.mem_cons_self ..)
    rw [addColumn_of_size hsize, headers_projected, t.name_picked]
    refine ite_congr rfl (fun _ => rfl) fun _ => ?_
    unfold projected
    rw [List.map_append]
    rfl

theorem addColumn_projected_eq_ok_iff (h : t.WellFormed) (hu : t.Unmixed done) :
    (t.projected done).addColumn b (t.picked n) = .ok r ↔
      n ∉ done ∧ t.Unmixed (done ++ [n]) ∧ r = t.projected (done ++ [n]) := by
  constructor
  · intro hok
    have hu' := unmixed_of_addColumn h hu hok
    rw [addColumn_projected h hu'] at hok
    split at hok
    · cases hok
    · next hn => exact ⟨hn, hu', (Except.ok.inj hok).symm⟩
  · rintro ⟨hn, hu', rfl⟩
    rw [addColumn_projected h hu', if_neg hn]

/-! ### All columns -/

theorem project_append (b : Bindings) (t : Table) (done : List String) (n : String) :
    t.project b (done ++ [n]) = t.project b done >>= fun r => r.addColumn b (t.picked n) := by
  unfold project picked
  rw [List.foldlM_append]
  refine congrArg (_ >>= ·) (funext fun r => ?_)
  rw [List.foldlM_cons]
  exact bind_pure _

/-- A projection of a well-formed table gives the picked columns as they are. It fails only because a
name comes twice or because a predicate column is asked for beside something else. -/
theorem project_eq_ok_iff (h : t.WellFormed) :
    t.project b names = .ok r ↔ names.Nodup ∧ t.Unmixed names ∧ r = t.projected names := by
  induction names using List.reverseRecOn generalizing r with
  | nil =>
    have hnil : t.Unmixed [] := Or.inl fun _ hn => absurd hn List.not_mem_nil
    exact ⟨fun hok => ⟨.nil, hnil, (Except.ok.inj hok).symm⟩, fun ⟨_, _, hr⟩ => hr ▸ rfl⟩
  | append_singleton done n ih =>
    rw [project_append, ← List.concat_eq_append, List.nodup_concat, List.concat_eq_append]
    constructor
    · intro hok
      cases hdone : t.project b done with
      | error e =>
        rw [hdone] at hok
        cases hok
      | ok u =>
        obtain ⟨hnodup, hu, rfl⟩ := ih.1 hdone
        rw [hdone, ok_bind] at hok
        obtain ⟨hn, hu', hr⟩ := (addColumn_projected_eq_ok_iff h hu).1 hok
        exact ⟨⟨hn, hnodup⟩, hu', hr⟩
    · rintro ⟨⟨hn, hnodup⟩, hu', hr⟩
      have hu := unmixed_of_append hu'
      rw [ih.2 ⟨hnodup, hu, rfl⟩, ok_bind]
      exact (addColumn_projected_eq_ok_iff h hu).2 ⟨hn, hu', hr⟩

/-- The columns of a table under these names, and columns of text where there is none. -/
structure Projects (t : Table) (names : List String) (r : Table) : Prop where
  name : r.name = t.name
  headers : r.headers = names
  column : ∀ n ∈ names, ∀ c, t.column? n = some c → r.column? n = some c
  literal : ∀ n ∈ names, t.column? n = none →
    r.column? n = some (.any n (.replicate t.rowCount (.text n)))
  even : ∀ c ∈ r.columns, c.size.toNat = t.rowCount
  rowCount : names ≠ [] → r.rowCount = t.rowCount

theorem projects_projected (h : t.WellFormed) (hu : t.Unmixed names) :
    t.Projects names (t.projected names) := by
  have hsize : ∀ n, (t.picked n).size.toNat = t.rowCount := by
    intro n
    by_cases hn : t.NamesPredicate n
    · obtain ⟨c, hc, hp⟩ := hn
      have hpicked : t.picked n = c := by rw [picked, hc, Option.getD_some]
      rw [hpicked, h.even c (List.mem_of_find?_eq_some hc)]
      rfl
    · rw [size_picked_of_not h hn, Int.toNat_natCast]
  refine ⟨rfl, headers_projected t names, fun n hn c hc => ?_, fun n hn hc => ?_, ?_, fun hne => ?_⟩
  · rw [column?_projected t hn, picked, hc, Option.getD_some]
  · rw [column?_projected t hn, picked, hc, Option.getD_none]
    rfl
  · exact List.forall_mem_map.2 fun n _ => hsize n
  · obtain ⟨n, hn⟩ := List.exists_mem_of_ne_nil names hne
    unfold rowCount
    rw [size_projected h hu hn]
    exact hsize n

end Table

namespace Query
variable {a : App} {q : Query} {w : World} {names : List String}

theorem run_select_eq_ok_iff (hp : q.prepared = true) {q' : Query} {w' : World} :
    (q.run (select a names)).run w = ((.ok (), q'), w') ↔
      ∃ t r, q.tables.Only t ∧ t.project w.graph.bindings names = .ok r ∧
        q' = { q with tables := .empty, result := some r } ∧
        w' = { w with profile := { w.profile with select := w.profile.select + 1 } } := by
  rw [run_eq_ok_iff, wpS_select hp]
  simp only [← TableSet.onlyTable_eq_ok_iff]
  cases q.tables.onlyTable with
  | error e => simp [NeverS]
  | ok t =>
    simp only [Except.ok.injEq, exists_and_left, exists_eq_left']
    cases t.project w.graph.bindings names with
    | error e => simp [NeverS]
    | ok r =>
      simp only [Except.ok.injEq, exists_eq_left']
      exact and_congr eq_comm eq_comm

/-- A selection from a prepared query whose live tables have been built succeeds exactly if one table
is live, no name comes twice, and no predicate column is asked for beside something else. Then the
result has the columns of these names, and literals for other names, and no table is live. -/
theorem select_projects_only_table (hp : q.prepared = true)
    (hb : ∀ x t, q.tables.get? x = some t → t.Built) :
    ((∃ q' w', (q.run (select a names)).run w = ((.ok (), q'), w')) ↔
      ∃ t, q.tables.Only t ∧ names.Nodup ∧ t.Unmixed names) ∧
    ∀ q' w', (q.run (select a names)).run w = ((.ok (), q'), w') →
      ∃ t r, q.tables.Only t ∧ t.Projects names r ∧
        q' = { q with tables := .empty, result := some r } ∧
        w' = { w with profile := { w.profile with select := w.profile.select + 1 } } := by
  have hwell : ∀ {t}, q.tables.Only t → t.WellFormed := fun {t} ⟨x, hx⟩ =>
    (hb x t ((hx x).trans (if_pos rfl))).wellFormed
  simp only [run_select_eq_ok_iff hp]
  refine ⟨⟨?_, ?_⟩, ?_⟩
  · rintro ⟨q', w', t, r, ht, hr, -⟩
    obtain ⟨hn, hu, -⟩ := (Table.project_eq_ok_iff (hwell ht)).1 hr
    exact ⟨t, ht, hn, hu⟩
  · rintro ⟨t, ht, hn, hu⟩
    exact ⟨_, _, t, _, ht, (Table.project_eq_ok_iff (hwell ht)).2 ⟨hn, hu, rfl⟩, rfl, rfl⟩
  · rintro q' w' ⟨t, r, ht, hr, hq, hw⟩
    obtain ⟨-, hu, rfl⟩ := (Table.project_eq_ok_iff (hwell ht)).1 hr
    exact ⟨t, _, ht, Table.projects_projected (hwell ht) hu, hq, hw⟩

def linesTable : Table :=
  Edit.runAll [.ofColumn "files" (.any "file" #[.text "a", .text "b"]),
    .addColumn .empty (.any "line" #[.text "1"])] (.new "files")

def linesQuery : Query := { empty with tables := ⟨.insert .empty "files" linesTable⟩, prepared := true }

theorem get?_linesQuery (x : String) :
    linesQuery.tables.get? x = if x = "files" then some linesTable else none :=
  TableSet.get?_insert .empty linesTable x

theorem select_projects_only_table_lines :
    linesQuery.prepared = true ∧ (∀ x t, linesQuery.tables.get? x = some t → t.Built) ∧
      ∃ q' w' r, (linesQuery.run (select WhereStage.nowhere ["note", "line"])).run
          (.new WhereStage.nowhere ⟨"plain", [], []⟩) = ((.ok (), q'), w') ∧
        q'.result = some r ∧ r.headers = ["note", "line"] ∧
        r.column? "note" = some (.any "note" (.replicate 2 (.text "note"))) := by
  have hbuilt : ∀ x t, linesQuery.tables.get? x = some t → t.Built := by
    intro x t ht
    rw [get?_linesQuery] at ht
    split at ht
    · cases ht
      exact ⟨_, _, rfl⟩
    · cases ht
  have hunmixed : linesTable.Unmixed ["note", "line"] := by
    refine Or.inr fun n hn => ?_
    rintro ⟨c, hc, hp⟩
    have hnone : linesTable.hasPredicate = false := rfl
    have := Table.hasPredicate_eq_false_iff.1 hnone c (List.mem_of_find?_eq_some hc)
    rw [hp] at this
    cases this
  obtain ⟨hiff, hgives⟩ := @select_projects_only_table WhereStage.nowhere linesQuery
    (.new WhereStage.nowhere ⟨"plain", [], []⟩) ["note", "line"] rfl hbuilt
  obtain ⟨q', w', hrun⟩ := hiff.2 ⟨linesTable, ⟨"files", get?_linesQuery⟩, by decide, hunmixed⟩
  obtain ⟨t, r, ⟨x, ht⟩, hproj, rfl, -⟩ := hgives q' w' hrun
  have hfiles := (get?_linesQuery "files").symm.trans (ht "files")
  rw [if_pos rfl] at hfiles
  split at hfiles
  · cases hfiles
    exact ⟨rfl, hbuilt, _, w', r, hrun, rfl, hproj.headers, hproj.literal "note" (by decide) rfl⟩
  · cases hfiles

end Query

end CodeGraph
