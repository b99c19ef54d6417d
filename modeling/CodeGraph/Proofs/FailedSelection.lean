import CodeGraph.Proofs.FailedStage

/-!
# What a failed selection leaves

A selection looks whether exactly one table is live before it takes the tables, and takes them before
it projects. So it fails without a trace if the number of live tables is another, and otherwise it
fails as the projection does and the live table is gone; the stored result stays in either case
(`Query.select_fails_losing_only_table`).
-/

namespace CodeGraph

theorem TableSet.onlyTable_eq_error {s : TableSet} {e : Error} (h : s.onlyTable = .error e) :
    s.size ≠ 1 ∧ e = .notExactlyOne "table" s.size := by
  have hsize : s.size = s.tables.values.length := (List.length_map _).symm
  unfold onlyTable at h
  rw [hsize]
  split at h
  · cases h
  · next ts hne =>
    cases h
    refine ⟨fun hone => ?_, rfl⟩
    obtain ⟨t, ht⟩ := List.length_eq_one_iff.1 hone
    exact hne t ht

theorem TableSet.size_of_onlyTable {s : TableSet} {t : Table} (h : s.onlyTable = .ok t) :
    s.size = 1 := by
  have hsize : s.size = s.tables.values.length := (List.length_map _).symm
  unfold onlyTable at h
  rw [hsize]
  split at h
  · next hts =>
    rw [hts]
    rfl
  · cases h

namespace Query
variable {a : App} {q q' : Query} {w w' : World} {names : List String}

theorem wpS_select (hp : q.prepared = true) {Q : Unit → Query → World → Prop}
    {E : Error → Query → World → Prop} :
    wpS (select a names) Q E q w ↔
      match q.tables.onlyTable with
      | .error e => E e q w
      | .ok t =>
        match t.project w.graph.bindings names with
        | .error e => E e { q with tables := .empty } w
        | .ok result => Q () { q with tables := .empty, result := some result }
            { w with profile := { w.profile with select := w.profile.select + 1 } } := by
  unfold select
  rw [wpS_bind, wpS_prepare_of_prepared hp, wpS_bind, wpS_query, wpS_bind, wpS_except]
  cases q.tables.onlyTable with
  | error e => exact Iff.rfl
  | ok t =>
    dsimp only
    rw [wpS_bind, wpS_update, wpS_bind, wpS_ofWorldM, wp_bindings, wpS_bind, wpS_except]
    cases t.project w.graph.bindings names <;> exact Iff.rfl

/-- A selection that fails on a prepared query changes nothing but the live tables. If exactly one
table was live it is lost, because what failed was its projection; otherwise they are as before. -/
theorem select_fails_losing_only_table (hp : q.prepared = true) {e : Error}
    (h : (q.run (select a names)).run w = ((.error e, q'), w')) :
    w' = w ∧ q' = { q with tables := q'.tables } ∧
      (q.tables.size ≠ 1 → q' = q ∧ e = .notExactlyOne "table" q.tables.size) ∧
      (q.tables.size = 1 → q'.tables = .empty ∧
        ∃ t, q.tables.onlyTable = .ok t ∧ t.project w.graph.bindings names = .error e) := by
  have hs : wpS (select a names) (fun _ _ _ => True) (fun e q' w' => w' = w ∧
      q' = { q with tables := q'.tables } ∧
      (q.tables.size ≠ 1 → q' = q ∧ e = .notExactlyOne "table" q.tables.size) ∧
      (q.tables.size = 1 → q'.tables = .empty ∧
        ∃ t, q.tables.onlyTable = .ok t ∧ t.project w.graph.bindings names = .error e)) q w := by
    rw [wpS_select hp]
    cases ht : q.tables.onlyTable with
    | error e =>
      dsimp only
      obtain ⟨hsize, he⟩ := TableSet.onlyTable_eq_error ht
      exact ⟨rfl, rfl, fun _ => ⟨rfl, he⟩, fun hone => absurd hone hsize⟩
    | ok t =>
      have hone := TableSet.size_of_onlyTable ht
      dsimp only
      cases hr : t.project w.graph.bindings names with
      | ok result => trivial
      | error e => exact ⟨rfl, rfl, fun hne => absurd hone hne, fun _ => ⟨rfl, t, rfl, hr⟩⟩
  unfold wpS wp at hs
  rw [show ((select a names).run.run q).run w = ((.error e, q'), w') from h] at hs
  exact hs

theorem select_fails_losing_only_table_repeated :
    ∃ e q' w', (WhereStage.oneTable.run (select WhereStage.nowhere ["a", "a"])).run
        (.new WhereStage.nowhere ⟨"plain", [], []⟩) = ((.error e, q'), w') ∧
      q'.tables = .empty ∧ q'.result = none := by
  refine ⟨_, _, _, rfl, ?_⟩
  obtain ⟨-, hsame, -, hlost⟩ := @select_fails_losing_only_table WhereStage.nowhere
    WhereStage.oneTable _ (.new WhereStage.nowhere ⟨"plain", [], []⟩) _ ["a", "a"] rfl _ rfl
  exact ⟨(hlost rfl).1, by rw [hsame]; rfl⟩

/-- A table is taken before it is projected, so a selection that asks for a name twice does not leave
the query as it was. -/
theorem failed_selection_changes_tables :
    ¬ ∀ (a : App) (q : Query) (w : World) (names : List String) (e : Error) (q' : Query) (w' : World),
      q.prepared = true → (q.run (select a names)).run w = ((.error e, q'), w') →
        (∀ x, q'.tables.get? x = q.tables.get? x) ∧ q'.result = q.result := by
  intro h
  have hsame := (h WhereStage.nowhere WhereStage.oneTable
    (.new WhereStage.nowhere ⟨"plain", [], []⟩) ["a", "a"] _ _ _ rfl rfl).1 "a"
  cases hsame

end Query

end CodeGraph
