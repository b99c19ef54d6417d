import CodeGraph.Proofs.Stages

/-!
# What a failed filter or flow leaves

A filter or a flow looks up the tables that it reads before it takes them, and takes them before it
can fail for any other reason. So when it fails the query has lost nothing if some table is not live,
and has otherwise lost the tables read, when their aliases are different; whatever is not read stays
as it was (`WhereStage.fails_losing_tables`).
-/

namespace CodeGraph

namespace Query

inductive WhereStage where
  | filter (f : Filter)
  | flow (f : Flow)

namespace WhereStage
variable {s : WhereStage} {a : App} {q q' : Query} {w : World} {taken : List String}

def run (a : App) : WhereStage → StageM Unit
  | filter f => Query.filter a f
  | flow f => Query.flow a f

def reads : WhereStage → List String
  | filter f => [f.name]
  | flow f => f.source :: f.sink :: f.barrier.toList

/-- `q'` is `q` but for the tables that have been taken. -/
structure Lost (taken : List String) (q q' : Query) : Prop where
  same : q' = { q with tables := q'.tables }
  get? : ∀ x, q'.tables.get? x = if x ∈ taken then none else q.tables.get? x

theorem Lost.nothing (q : Query) : Lost [] q q := ⟨rfl, fun _ => (if_neg List.not_mem_nil).symm⟩

theorem Lost.take (h : Lost taken q q') (x : String) :
    Lost (taken ++ [x]) q { q' with tables := ⟨q'.tables.tables.erase x⟩ } := by
  refine ⟨by rw [h.same], fun y => ?_⟩
  show (TableSet.mk (q'.tables.tables.erase x)).get? y = _
  rw [TableSet.get?_erase, h.get?]
  by_cases hy : y = x <;> by_cases ht : y ∈ taken <;> simp [hy, ht]

/-- What a stage that reads these aliases loses when it fails. -/
def Spared (reads : List String) (q q' : Query) : Prop :=
  ∃ taken, Lost taken q q' ∧ taken ⊆ reads ∧
    ((∃ x ∈ reads, q.tables.get? x = none) → taken = []) ∧
    ((∀ x ∈ reads, q.tables.get? x ≠ none) → reads.Nodup → taken = reads)

theorem spared_of_missing {reads : List String} {x : String} (hx : x ∈ reads)
    (hnone : q.tables.get? x = none) : Spared reads q q :=
  ⟨[], .nothing q, List.nil_subset _, fun _ => rfl, fun hall => absurd hnone (hall x hx)⟩

theorem Lost.spared (h : Lost taken q q') (hlive : ∀ x ∈ taken, q.tables.get? x ≠ none) :
    Spared taken q q' :=
  ⟨taken, h, List.Subset.refl _, fun ⟨x, hx, hnone⟩ => absurd hnone (hlive x hx), fun _ _ => rfl⟩

theorem Lost.wpS_finish (h : Lost taken q q') (hlive : ∀ x ∈ taken, q.tables.get? x ≠ none)
    {m : QueryM Table} {f : Table → Table} {p : Profile → Profile} :
    wpS (do
      let t ← Stage.ofQueryM m
      giveTable (f t)
      Stage.ofWorldM (World.count p)) (fun _ _ _ => True) (fun _ q'' _ => Spared taken q q'') q' w := by
  rw [wpS_bind, wpS_ofQueryM]
  refine wpE_mono wpE_trivial (fun t w' _ => ?_) fun _ _ _ => h.spared hlive
  rw [wpS_bind, wpS_giveTable]
  cases q'.tables.get? (f t).name with
  | none => trivial
  | some u => exact h.spared hlive

theorem wpS_filter (hp : q.prepared = true) (f : Filter) :
    wpS (Query.filter a f) (fun _ _ _ => True) (fun _ q' _ => Spared [f.name] q q') q w := by
  unfold Query.filter
  rw [wpS_bind, wpS_prepare_of_prepared hp, wpS_bind, wpS_takeTable]
  cases ht : q.tables.get? f.name with
  | none => exact spared_of_missing (List.mem_singleton.2 rfl) ht
  | some t =>
    refine ((Lost.nothing q).take f.name).wpS_finish (f := id) fun x hx => ?_
    rw [List.mem_singleton.1 hx, ht]
    exact Option.some_ne_none t

theorem Lost.spared_of_repeat {reads : List String} (h : Lost taken q q') (hsub : taken ⊆ reads)
    (hlive : ∀ x ∈ reads, q.tables.get? x ≠ none) (hrep : ¬ reads.Nodup) : Spared reads q q' :=
  ⟨taken, h, hsub, fun ⟨x, hx, hnone⟩ => absurd hnone (hlive x hx), fun _ hn => absurd hn hrep⟩

theorem Lost.wpS_takeTable (h : Lost taken q q') {x : String} {R : Query → Prop}
    {k : Table → StageM Unit} (hlive : q.tables.get? x ≠ none) (hrep : x ∈ taken → R q')
    (hk : ∀ t q'' w, x ∉ taken → Lost (taken ++ [x]) q q'' →
      wpS (k t) (fun _ _ _ => True) (fun _ q' _ => R q') q'' w) :
    wpS (takeTable x >>= k) (fun _ _ _ => True) (fun _ q' _ => R q') q' w := by
  rw [wpS_bind, Query.wpS_takeTable, h.get?]
  by_cases hx : x ∈ taken
  · rw [if_pos hx]
    exact hrep hx
  · rw [if_neg hx]
    cases ht : q.tables.get? x with
    | none => exact absurd ht hlive
    | some t => exact hk t _ w hx (h.take x)

theorem wpS_flow (hp : q.prepared = true) (f : Flow) :
    wpS (Query.flow a f) (fun _ _ _ => True)
      (fun _ q' _ => Spared (f.source :: f.sink :: f.barrier.toList) q q') q w := by
  unfold Query.flow
  rw [wpS_bind, wpS_prepare_of_prepared hp, wpS_bind, wpS_requireTable]
  cases hsource : q.tables.get? f.source with
  | none => exact spared_of_missing (List.mem_cons_self ..) hsource
  | some t =>
  rw [wpS_bind, wpS_requireTable]
  cases hsink : q.tables.get? f.sink with
  | none => exact spared_of_missing (List.mem_cons_of_mem _ (List.mem_cons_self ..)) hsink
  | some u =>
  have hlive₁ : q.tables.get? f.source ≠ none := by rw [hsource]; exact Option.some_ne_none t
  have hlive₂ : q.tables.get? f.sink ≠ none := by rw [hsink]; exact Option.some_ne_none u
  cases hb : f.barrier with
  | none =>
    have hlive : ∀ x ∈ [f.source, f.sink], q.tables.get? x ≠ none := by simp [hlive₁, hlive₂]
    -- all tables are live: from here on what fails has lost those taken so far
    refine (Lost.nothing q).wpS_takeTable hlive₁ (fun hx => absurd hx List.not_mem_nil)
      fun source q₁ w₁ _ h₁ => ?_
    refine h₁.wpS_takeTable hlive₂ (fun hx => ?_) fun sink q₂ w₂ _ h₂ => ?_
    · refine h₁.spared_of_repeat (List.cons_subset_cons _ (List.nil_subset _)) hlive ?_
      rw [List.mem_singleton.1 hx]
      simp
    · exact h₂.wpS_finish hlive
  | some b =>
    rw [wpS_bind]
    show wpS (requireTable b) _ _ q w
    rw [wpS_requireTable]
    cases hbar : q.tables.get? b with
    | none => exact spared_of_missing (by simp) hbar
    | some v =>
    have hlive₃ : q.tables.get? b ≠ none := by rw [hbar]; exact Option.some_ne_none v
    have hlive : ∀ x ∈ [f.source, f.sink, b], q.tables.get? x ≠ none := by
      simp [hlive₁, hlive₂, hlive₃]
    refine (Lost.nothing q).wpS_takeTable hlive₁ (fun hx => absurd hx List.not_mem_nil)
      fun source q₁ w₁ _ h₁ => ?_
    refine h₁.wpS_takeTable hlive₂ (fun hx => ?_) fun sink q₂ w₂ _ h₂ => ?_
    · refine h₁.spared_of_repeat (List.cons_subset_cons _ (List.nil_subset _)) hlive ?_
      rw [List.mem_singleton.1 hx]
      simp
    · rw [Option.mapM_some, bind_map_left]
      refine h₂.wpS_takeTable hlive₃ (fun hx => ?_) fun barrier q₃ w₃ _ h₃ => h₃.wpS_finish hlive
      refine h₂.spared_of_repeat (fun x hx => ?_) hlive ?_
      · exact List.mem_append_left [b] hx
      · intro hn
        have hn' := List.nodup_append.1 (show ([f.source, f.sink] ++ [b]).Nodup from hn)
        exact hn'.2.2 b hx b (List.mem_singleton.2 rfl) rfl

/-- A filter or a flow that fails on a prepared query has lost nothing if a table that it reads is not
live. Otherwise it has lost the tables that it reads if their aliases are different, and never any
other. -/
theorem fails_losing_tables (hp : q.prepared = true) {e : Error} {w' : World}
    (h : (q.run (s.run a)).run w = ((.error e, q'), w')) :
    ∃ taken, q' = { q with tables := q'.tables } ∧
      (∀ x, q'.tables.get? x = if x ∈ taken then none else q.tables.get? x) ∧ taken ⊆ s.reads ∧
      ((∃ x ∈ s.reads, q.tables.get? x = none) → taken = []) ∧
      ((∀ x ∈ s.reads, q.tables.get? x ≠ none) → s.reads.Nodup → taken = s.reads) := by
  have hs : wpS (s.run a) (fun _ _ _ => True) (fun _ q' _ => Spared s.reads q q') q w := by
    cases s with
    | filter f => exact wpS_filter hp f
    | flow f => exact wpS_flow hp f
  unfold wpS wp at hs
  rw [show ((s.run a).run.run q).run w = ((.error e, q'), w') from h] at hs
  obtain ⟨taken, hlost, hsub, hmissing, hall⟩ := hs
  exact ⟨taken, hlost.same, hlost.get?, hsub, hmissing, hall⟩

def oneTable : Query :=
  { empty with tables := ⟨.insert .empty "a" (.new "a")⟩, prepared := true }

def failing : WhereStage :=
  filter ⟨"a", .custom fun _ _ => .error (.unsupported "custom transform")⟩

def nowhere : App := ⟨.default, InMemoryStore.empty.toStore⟩

theorem fails_losing_tables_failing :
    ∃ e q' w', (oneTable.run (failing.run nowhere)).run (.new nowhere ⟨"plain", [], []⟩) =
      ((.error e, q'), w') ∧ q'.tables.get? "a" = none := by
  refine ⟨_, _, _, rfl, ?_⟩
  obtain ⟨taken, -, hget, -, -, hall⟩ :=
    @fails_losing_tables failing nowhere oneTable _ (.new nowhere ⟨"plain", [], []⟩) rfl _ _ rfl
  have hlive : ∀ x ∈ failing.reads, oneTable.tables.get? x ≠ none := by decide
  rw [hget, hall hlive (by decide)]
  rfl

/-- Tables are taken before a stage can fail, so a failed filter does not leave the query as it was. -/
theorem failed_filter_changes_tables :
    ¬ ∀ (s : WhereStage) (a : App) (q : Query) (w : World) (e : Error) (q' : Query) (w' : World),
      q.prepared = true → (q.run (s.run a)).run w = ((.error e, q'), w') →
        ∀ x, q'.tables.get? x = q.tables.get? x := by
  intro h
  have hsame := h failing nowhere oneTable (.new nowhere ⟨"plain", [], []⟩) _ _ _ rfl rfl "a"
  cases hsame

end WhereStage

end Query

end CodeGraph
