import CodeGraph.Proofs.FailedStage
import CodeGraph.Proofs.FlowRows
import CodeGraph.Proofs.Replacing
import CodeGraph.Proofs.Sights

/-!
# When a flow succeeds

A flow can fail at many places: an alias is not live or comes twice, a table has not exactly one column,
the columns of the result clash, the source column cannot be read, the algorithm fails, or the alias of
the result is taken. Together these come to one condition on the query as it was (`Flow.Fits`) and to the
answers of the algorithm, which is asked for one source value after the other (`Flow.Answers`). What the
algorithm records with each answer makes up the rows, in the order of the source values
(`Query.flow_succeeds_iff`).
-/

namespace CodeGraph

theorem Table.onlyColumn_eq_ok_iff {t : Table} {c : Column} : t.onlyColumn = .ok c ↔ t.columns = [c] := by
  unfold onlyColumn
  constructor
  · intro h
    split at h
    · next c' hc =>
      cases h
      exact hc
    · cases h
  · intro h
    rw [h]

namespace Column
variable {c : Column}

def starts (c : Column) : List Value :=
  match c.cells with
  | .ok cells => cells.toList.filterMap Cell.value?
  | .error _ => []

theorem exists_cells_iff : (∃ cells, c.cells = .ok cells) ↔ c.isPredicate = false := by
  cases c <;> simp [cells, isPredicate]

theorem starts_of_cells {cells : Array (Cell Ref)} (h : c.cells = .ok cells) :
    c.starts = cells.toList.filterMap Cell.value? := by
  unfold starts
  rw [h]

end Column

/-! ### What is recorded -/

namespace FlowResult
variable {b : Bindings} {al : FlowAliases} {r r' r₁ r₂ : FlowResult} {rs : List FlowResult} {x : Finding}
  {xs ys : List Finding} {groups : List (List Finding)} {w : World}

def blank (al : FlowAliases) : FlowResult :=
  ⟨al, al.name, 0, .data (.new al.source true) :: .data (.new al.sink true) ::
    ((al.barrier.map (Column.any · #[])).toList ++ [.any al.name #[]])⟩

theorem new_of_nodup (h : al.names.Nodup) : new b al = .ok (blank al) := by
  obtain ⟨source, sink, barrier, name⟩ := al
  have hd := FlowAliases.distinct h
  unfold new Table.new
  dsimp only
  rw [Table.addColumn_of_nil [] source rfl rfl rfl, if_neg List.not_mem_nil, ok_bind,
    List.nil_append, Table.addColumn_of_nil [source] sink rfl rfl rfl,
    if_neg fun hm => hd.sink (List.mem_singleton.1 hm), ok_bind, List.singleton_append]
  cases barrier with
  | none =>
    have hname : name ∉ [source, sink] := by simp [hd.name_source, hd.name_sink]
    dsimp only
    rw [pure_bind, Table.addColumn_of_nil [source, sink] name rfl rfl rfl, if_neg hname]
    rfl
  | some n =>
    obtain ⟨hns, hnk, hnm⟩ := hd.barrier n rfl
    have hbar : n ∉ [source, sink] := by simp [hns, hnk]
    have hname : name ∉ [source, sink, n] := by simp [hd.name_source, hd.name_sink, Ne.symm hnm]
    dsimp only
    rw [Table.addColumn_of_nil [source, sink] n rfl rfl rfl, if_neg hbar, ok_bind,
      Table.addColumn_of_nil [source, sink, n] name rfl rfl rfl, if_neg hname]
    rfl

theorem new_eq_ok_iff : new b al = .ok r ↔ al.names.Nodup ∧ r = blank al := by
  constructor
  · intro h
    have hn := (lists_of_new h).names
    exact ⟨hn, (Except.ok.inj ((new_of_nodup hn).symm.trans h)).symm⟩
  · rintro ⟨hn, rfl⟩
    exact new_of_nodup hn

theorem lists_blank (h : al.names.Nodup) : (blank al).Lists al [] :=
  lists_of_new (new_of_nodup (b := .empty) h)

/-- The second result is the first with these findings recorded one after the other. -/
inductive Emits : FlowResult → List Finding → FlowResult → Prop where
  | nil (r : FlowResult) : Emits r [] r
  | cons {r r' : FlowResult} {b : Bindings} {t : Table} {x : Finding} {xs : List Finding} :
    r.table.addRow b (rowOf r.aliases x) = .ok t → Emits { r with table := t } xs r' → Emits r (x :: xs) r'

theorem Emits.append (h : r.Emits xs r₁) (h' : r₁.Emits ys r₂) : r.Emits (xs ++ ys) r₂ := by
  induction h with
  | nil => exact h'
  | cons hadd _ ih => exact .cons hadd (ih h')

/-- Each result of the list comes from the one before by recording a group of findings. -/
inductive EmitsEach : FlowResult → List (List Finding) → List FlowResult → Prop where
  | nil (r : FlowResult) : EmitsEach r [] []
  | cons {r r₁ : FlowResult} {xs : List Finding} {groups : List (List Finding)} {rs : List FlowResult} :
    r.Emits xs r₁ → EmitsEach r₁ groups rs → EmitsEach r (xs :: groups) (r₁ :: rs)

theorem Lists.emits (h : r.Lists al xs) (he : r.Emits ys r') : r'.Lists al (xs ++ ys) := by
  induction he generalizing xs with
  | nil => rwa [List.append_nil]
  | @cons r r' b t x ys hadd _ ih =>
    obtain ⟨t', hadd', hlists⟩ := h.table.addRow b (lookup_rowOf h.names x)
    rw [h.aliases, hadd'] at hadd
    cases hadd
    rw [List.append_cons]
    exact ih ⟨h.names, h.aliases, hlists⟩

theorem Lists.emitsEach (h : r.Lists al xs) (he : r.EmitsEach groups rs) :
    (rs.getLastD r).Lists al (xs ++ groups.flatten) := by
  induction he generalizing xs with
  | nil => rwa [List.flatten_nil, List.append_nil]
  | cons hemits _ ih =>
    rw [List.getLastD_cons, List.flatten_cons, ← List.append_assoc]
    exact ih (h.emits hemits)

theorem Lists.headers (h : r.Lists al xs) : r.table.headers = al.names := by
  refine (map_eq_map_of_forall₂ (h.table.columns.imp fun _ _ hc => hc.1)).trans ?_
  unfold FlowAliases.cells FlowAliases.names
  cases al.barrier <;> rfl

end FlowResult

/-! ### Algorithms -/

namespace Flow
variable {ask : Value → FlowResult → QueryM FlowResult} {f : Flow} {source sink barrier : Column}
  {v : Value} {vs : List Value} {r r₁ : FlowResult} {rs : List FlowResult} {w w' : World}

/-- The algorithm is asked for these values one after the other, each time with the result and in the
world that it left the last time. It succeeds each time, and these are its results. -/
inductive Answers (ask : Value → FlowResult → QueryM FlowResult) :
    List Value → FlowResult → World → List FlowResult → World → Prop where
  | nil (r : FlowResult) (w : World) : Answers ask [] r w [] w
  | cons {v : Value} {vs : List Value} {r r₁ : FlowResult} {rs : List FlowResult} {w w₁ w₂ : World} :
    (ask v r).run.run w = (.ok r₁, w₁) → Answers ask vs r₁ w₁ rs w₂ →
    Answers ask (v :: vs) r w (r₁ :: rs) w₂

theorem wpE_foldlM_iff {cells : List (Cell Ref)} {Q : FlowResult → World → Prop} :
    wpE (cells.foldlM (f.addFindings source sink barrier) r) Q Never w ↔
      ∃ rs w', Answers (f.algorithm · source sink barrier) (cells.filterMap Cell.value?) r w rs w' ∧
        Q (rs.getLastD r) w' := by
  induction cells generalizing r w with
  | nil =>
    constructor
    · exact fun h => ⟨[], w, .nil r w, h⟩
    · rintro ⟨_, _, ⟨⟩, hQ⟩
      exact hQ
  | cons cell cells ih =>
    rw [List.foldlM_cons, wpE_bind, addFindings]
    cases hv : cell.value? with
    | none =>
      rw [List.filterMap_cons_none hv]
      exact ih
    | some v =>
      rw [List.filterMap_cons_some hv]
      dsimp only
      rw [Query.wpE_never_iff]
      simp only [ih]
      constructor
      · rintro ⟨r₁, w₁, hrun, rs, w', hrest, hQ⟩
        exact ⟨r₁ :: rs, w', .cons hrun hrest, by rwa [List.getLastD_cons]⟩
      · rintro ⟨_, w', hcons, hQ⟩
        cases hcons with
        | cons hrun hrest =>
          rw [List.getLastD_cons] at hQ
          exact ⟨_, _, hrun, _, w', hrest, hQ⟩

/-- A flow makes a table of tables with one column each if its aliases are different, the source column
has cells, and the algorithm succeeds for each value among them. -/
theorem wpE_apply_iff {t₁ t₂ : Table} {t₃ : Option Table} {Q : Table → World → Prop} :
    wpE (f.apply t₁ t₂ t₃) Q Never w ↔ ∃ source sink barrier, t₁.columns = [source] ∧
      t₂.columns = [sink] ∧ t₃.elim (barrier = noBarrier) (·.columns = [barrier]) ∧ f.names.Nodup ∧
      source.isPredicate = false ∧ ∃ rs w',
        Answers (f.algorithm · source sink barrier) source.starts (.blank f.toFlowAliases) w rs w' ∧
        Q (rs.getLastD (.blank f.toFlowAliases)).table w' := by
  have hrest : ∀ source sink barrier : Column, wpE (do
      let r ← FlowResult.new (← World.bindings) f.toFlowAliases
      let r ← (← source.cells).toList.foldlM (f.addFindings source sink barrier) r
      return r.table : QueryM Table) Q Never w ↔ f.names.Nodup ∧ source.isPredicate = false ∧ ∃ rs w',
        Answers (f.algorithm · source sink barrier) source.starts (.blank f.toFlowAliases) w rs w' ∧
        Q (rs.getLastD (.blank f.toFlowAliases)).table w' := by
    intro source sink barrier
    rw [wpE_bind, wpE_lift, wp_bindings, wpE_bind, wpE_except]
    cases hnew : FlowResult.new w.graph.bindings f.toFlowAliases with
    | error e =>
      refine iff_of_false id fun h => ?_
      cases hnew.symm.trans (FlowResult.new_of_nodup h.1)
    | ok r =>
      obtain ⟨hn, rfl⟩ := FlowResult.new_eq_ok_iff.1 hnew
      dsimp only
      rw [and_iff_right hn, wpE_bind, wpE_except, ← Column.exists_cells_iff]
      cases hcells : source.cells with
      | error e => exact iff_of_false id fun ⟨⟨_, h⟩, _⟩ => nomatch h
      | ok cells =>
        rw [and_iff_right ⟨cells, rfl⟩, Column.starts_of_cells hcells]
        show wpE (_ >>= _) Q Never w ↔ _
        rw [wpE_bind]
        exact wpE_foldlM_iff
  unfold apply
  rw [wpE_bind, wpE_except]
  simp only [← Table.onlyColumn_eq_ok_iff]
  cases t₁.onlyColumn with
  | error e => simp [Never]
  | ok source =>
    dsimp only
    rw [wpE_bind, wpE_except]
    cases t₂.onlyColumn with
    | error e => simp [Never]
    | ok sink =>
      simp only [Except.ok.injEq, exists_and_left, exists_eq_left']
      cases t₃ with
      | none =>
        simp only [Option.elim_none, exists_eq_left]
        exact hrest source sink noBarrier
      | some t =>
        simp only [Option.elim_some]
        rw [wpE_bind, wpE_except]
        cases t.onlyColumn with
        | error e => simp [Never]
        | ok barrier =>
          simp only [Except.ok.injEq, exists_eq_left']
          exact hrest source sink barrier

/-- The algorithm does nothing to its result but record findings. -/
def OnlyEmits (ask : Value → FlowResult → QueryM FlowResult) : Prop :=
  ∀ v r w, wpE (ask v r) (fun r' _ => ∃ xs, r.Emits xs r') (fun _ _ => True) w

theorem Answers.exists_emitsEach (he : OnlyEmits ask) (h : Answers ask vs r w rs w') :
    ∃ groups, r.EmitsEach groups rs := by
  induction h with
  | nil r w => exact ⟨[], .nil r⟩
  | cons hrun _ ih =>
    obtain ⟨xs, hemits⟩ := (wpE_of_run hrun).1 (he _ _ _)
    obtain ⟨groups, hgroups⟩ := ih
    exact ⟨xs :: groups, .cons hemits hgroups⟩

end Flow

theorem FlowResult.wpE_emit_emits (r : FlowResult) (x : Finding) (w : World) :
    wpE (r.emit x) (fun r' _ => r.Emits [x] r') (fun _ _ => True) w := by
  unfold emit
  rw [wpE_bind, wpE_lift, wp_bindings, wpE_bind, wpE_except]
  cases hadd : r.table.addRow w.graph.bindings (rowOf r.aliases x) with
  | error e => trivial
  | ok t => exact .cons hadd (.nil _)

namespace Reachability
variable {f : Reachability} {a : App} {sink barrier : Column} {start : Value} {trail : List Value}
  {id : VertexId} {r result : FlowResult} {w : World}

theorem wpE_visit_emits : wpE (visit a sink barrier start trail id r)
    (fun x _ => ∃ xs, r.Emits xs x.2) (fun _ _ => True) w := by
  rw [visit_eq, wpE_bind]
  refine wpE_mono wpE_trivial (fun s w' _ => ?_) fun _ _ _ => trivial
  cases s with
  | absent | blocked => exact ⟨[], .nil r⟩
  | entered v reached =>
    cases reached with
    | false => exact ⟨[], .nil r⟩
    | true =>
      show wpE (r.emit _ >>= _) _ _ _
      rw [wpE_bind]
      exact wpE_mono (r.wpE_emit_emits _ w') (fun _ _ he => ⟨_, he⟩) fun _ _ h => h

theorem wpE_follow_emits {before : Marks} {es : List Edge} {g : Grown before}
    (h : ∃ xs, r.Emits xs g.1.result) : wpE (follow a sink barrier start trail before es g)
      (fun g' _ => ∃ xs, r.Emits xs g'.1.result) (fun _ _ => True) w := by
  induction es generalizing g w with
  | nil => exact h
  | cons e es ih =>
    cases hm : g.1.marks.add? e.head with
    | none =>
      rw [follow_cons_of_none hm]
      exact ih h
    | some marks =>
      rw [follow_cons_of_some hm, wpE_bind]
      refine wpE_mono wpE_visit_emits (fun x w' hx => ih ?_) fun _ _ h => h
      obtain ⟨xs, hxs⟩ := h
      obtain ⟨ys, hys⟩ := hx
      exact ⟨xs ++ ys, hxs.append hys⟩

theorem wpE_rounds_emits {marks : Marks} {us : List Waiting} (h : ∃ xs, r.Emits xs result) :
    wpE (f.rounds a sink barrier start marks result us)
      (fun r' _ => ∃ xs, r.Emits xs r') (fun _ _ => True) w := by
  induction marks, result, us using rounds.induct f generalizing w with
  | case1 marks result => rwa [rounds]
  | case2 marks result u us hf ih =>
    rw [rounds_cons_of_follows hf, wpE_bind]
    refine wpE_mono wpE_trivial (fun es w₁ _ => ?_) fun _ _ _ => trivial
    rw [wpE_bind]
    exact wpE_mono (wpE_follow_emits h) (fun g w₂ hg => ih g.1 g.2 hg) fun _ _ h => h
  | case3 marks result u us hf ih =>
    rw [rounds_cons_of_not_follows hf]
    exact ih h

theorem onlyEmits_algorithm (f : Reachability) (a : App) (source sink barrier : Column) :
    Flow.OnlyEmits (f.algorithm a · source sink barrier) := by
  intro v r w
  unfold algorithm
  rw [wpE_bind]
  exact wpE_mono wpE_trivial (fun _ _ _ => wpE_rounds_emits ⟨[], .nil r⟩) fun _ _ _ => trivial

end Reachability

/-! ### The stage -/

namespace Query
variable {a : App} {q : Query} {w : World} {f : Flow} {source sink barrier : Column} {x : String}

def Single (q : Query) (x : String) (c : Column) : Prop := ∃ t, q.tables.get? x = some t ∧ t.columns = [c]

/-- What a flow asks of the query as it is: the tables that it reads are different and have one column
each, that of the source has cells, and the alias of the result is that of no live table. -/
structure FitsFlow (q : Query) (f : Flow) (source sink barrier : Column) : Prop where
  distinct : f.reads.Nodup
  oneSource : q.Single f.source source
  oneSink : q.Single f.sink sink
  oneBarrier : f.barrier.elim (barrier = Flow.noBarrier) (q.Single · barrier)
  cells : source.isPredicate = false
  free : q.tables.get? f.name = none

theorem single_iff {c : Column} :
    q.Single x c ↔ q.tables.contains x = true ∧ (q.tableAt x).columns = [c] := by
  unfold Single tableAt
  rw [TableSet.contains_iff]
  cases q.tables.get? x <;> simp

theorem names_eq_reads (f : Flow) : f.names = f.reads ++ [f.name] := rfl

theorem free_iff (h : ∀ y ∈ f.reads, q.tables.contains y = true) :
    (f.names.Nodup ∧ (q.dropAll f.reads).tables.contains f.name = false) ↔
      f.reads.Nodup ∧ q.tables.get? f.name = none := by
  rw [TableSet.contains_eq_false_iff, get?_dropAll, names_eq_reads, ← List.concat_eq_append,
    List.nodup_concat]
  -- an alias that the flow takes is free afterwards, but then the columns of its table clash
  by_cases hname : f.name ∈ f.reads
  · obtain ⟨t, ht⟩ := TableSet.contains_iff.1 (h _ hname)
    simp [hname, ht]
  · simp [hname]

theorem fitsFlow_iff : q.FitsFlow f source sink barrier ↔
    (∀ y ∈ f.reads, q.tables.contains y = true) ∧ (q.tableAt f.source).columns = [source] ∧
      (q.tableAt f.sink).columns = [sink] ∧
      (f.barrier.map q.tableAt).elim (barrier = Flow.noBarrier) (·.columns = [barrier]) ∧
      source.isPredicate = false ∧ f.names.Nodup ∧
      (q.dropAll f.reads).tables.contains f.name = false := by
  have hlive : (∀ y ∈ f.reads, q.tables.contains y = true) ↔ q.tables.contains f.source = true ∧
      q.tables.contains f.sink = true ∧ ∀ y ∈ f.barrier, q.tables.contains y = true := by
    simp [Flow.reads]
  constructor
  · rintro ⟨hn, hsource, hsink, hbarrier, hcells, hfree⟩
    rw [single_iff] at hsource hsink
    have hbar : (∀ y ∈ f.barrier, q.tables.contains y = true) ∧
        (f.barrier.map q.tableAt).elim (barrier = Flow.noBarrier) (·.columns = [barrier]) := by
      cases hb : f.barrier with
      | none =>
        rw [hb] at hbarrier
        exact ⟨fun y hy => absurd hy (Option.not_mem_none y), hbarrier⟩
      | some b =>
        rw [hb] at hbarrier
        obtain ⟨hc, ht⟩ := single_iff.1 hbarrier
        exact ⟨fun y hy => Option.some.inj hy ▸ hc, ht⟩
    have hall := hlive.2 ⟨hsource.1, hsink.1, hbar.1⟩
    exact ⟨hall, hsource.2, hsink.2, hbar.2, hcells, (free_iff hall).2 ⟨hn, hfree⟩⟩
  · rintro ⟨hall, hsource, hsink, hbarrier, hcells, hfree⟩
    obtain ⟨hs, hk, hb⟩ := hlive.1 hall
    obtain ⟨hn, hfree⟩ := (free_iff hall).1 hfree
    refine ⟨hn, single_iff.2 ⟨hs, hsource⟩, single_iff.2 ⟨hk, hsink⟩, ?_, hcells, hfree⟩
    cases hbar : f.barrier with
    | none =>
      rw [hbar] at hbarrier
      exact hbarrier
    | some b =>
      rw [hbar] at hbarrier
      exact single_iff.2 ⟨hb b hbar, hbarrier⟩

/-- The query with a table in place of those that a flow reads. -/
def givenFlow (q : Query) (f : Flow) (t : Table) : Query :=
  { q with tables := ⟨(q.dropAll f.reads).tables.tables.insert f.name (t.renamed f.name)⟩ }

theorem get?_givenFlow (q : Query) (f : Flow) (t : Table) (x : String) :
    (q.givenFlow f t).tables.get? x =
      if x = f.name then some (t.renamed f.name) else if x ∈ f.reads then none else q.tables.get? x := by
  rw [← get?_dropAll]
  exact TableSet.get?_insert _ (t.renamed f.name) x

theorem run_flow_eq_ok_iff (hp : q.prepared = true) {q' : Query} {w' : World} :
    (q.run (flow a f)).run w = ((.ok (), q'), w') ↔ ∃ source sink barrier rs w₁,
      q.FitsFlow f source sink barrier ∧
      Flow.Answers (f.algorithm · source sink barrier) source.starts (.blank f.toFlowAliases) w rs w₁ ∧
      q' = q.givenFlow f (rs.getLastD (.blank f.toFlowAliases)).table ∧
      w' = { w₁ with profile := { w₁.profile with flow := w₁.profile.flow + 1 } } := by
  rw [run_eq_ok_iff, wpS_flow hp, wpS_give_made, Flow.wpE_apply_iff]
  simp only [fitsFlow_iff]
  constructor
  · rintro ⟨hlive, -, hfree, source, sink, barrier, hsource, hsink, hbarrier, hn, hcells, rs, w₁,
      hanswers, hq, hw⟩
    refine ⟨source, sink, barrier, rs, w₁,
      ⟨hlive, hsource, hsink, hbarrier, hcells, hn, hfree⟩, hanswers, ?_, hw.symm⟩
    rw [← hq, dropAll_eq]
    rfl
  · rintro ⟨source, sink, barrier, rs, w₁, ⟨hlive, hsource, hsink, hbarrier, hcells, hn, hfree⟩,
      hanswers, hq, hw⟩
    refine ⟨hlive, ((free_iff hlive).1 ⟨hn, hfree⟩).1, hfree, source, sink, barrier, hsource, hsink,
      hbarrier, hn, hcells, rs, w₁, hanswers, ?_, hw.symm⟩
    rw [hq, dropAll_eq]
    rfl

/-- A flow on a prepared query succeeds exactly if it fits the query and the algorithm answers for every
source value. Then its table is live in place of those that it has read, and what the algorithm has
recorded for the source values in their order makes up the rows. -/
theorem flow_succeeds_iff (hp : q.prepared = true) :
    ((∃ q' w', (q.run (flow a f)).run w = ((.ok (), q'), w')) ↔ ∃ source sink barrier rs w₁,
      q.FitsFlow f source sink barrier ∧
      Flow.Answers (f.algorithm · source sink barrier) source.starts (.blank f.toFlowAliases) w rs w₁) ∧
    ∀ q' w', (q.run (flow a f)).run w = ((.ok (), q'), w') → ∃ source sink barrier rs w₁ t,
      q.FitsFlow f source sink barrier ∧
      Flow.Answers (f.algorithm · source sink barrier) source.starts (.blank f.toFlowAliases) w rs w₁ ∧
      w' = { w₁ with profile := { w₁.profile with flow := w₁.profile.flow + 1 } } ∧
      q' = { q with tables := q'.tables } ∧
      (∀ x, q'.tables.get? x =
        if x = f.name then some t else if x ∈ f.reads then none else q.tables.get? x) ∧
      t = (rs.getLastD (.blank f.toFlowAliases)).table.renamed f.name ∧
      (Flow.OnlyEmits (f.algorithm · source sink barrier) →
        ∃ groups, (FlowResult.blank f.toFlowAliases).EmitsEach groups rs) ∧
      ∀ groups, (FlowResult.blank f.toFlowAliases).EmitsEach groups rs →
        t.headers = f.reads ++ [f.name] ∧
        t.rows = .ok (groups.flatten.map fun x => f.cells.map fun c => (c.1, c.2 x)) := by
  simp only [run_flow_eq_ok_iff hp]
  refine ⟨⟨?_, ?_⟩, ?_⟩
  · rintro ⟨-, -, source, sink, barrier, rs, w₁, hfits, hanswers, -⟩
    exact ⟨source, sink, barrier, rs, w₁, hfits, hanswers⟩
  · rintro ⟨source, sink, barrier, rs, w₁, hfits, hanswers⟩
    exact ⟨_, _, source, sink, barrier, rs, w₁, hfits, hanswers, rfl, rfl⟩
  · rintro q' w' ⟨source, sink, barrier, rs, w₁, hfits, hanswers, rfl, rfl⟩
    refine ⟨source, sink, barrier, rs, w₁, _, hfits, hanswers, rfl, rfl, get?_givenFlow q f _, rfl,
      fun honly => hanswers.exists_emitsEach honly, fun groups hgroups => ?_⟩
    have hnames : f.names.Nodup := (fitsFlow_iff.1 hfits).2.2.2.2.2.1
    have hlists := (FlowResult.lists_blank hnames).emitsEach hgroups
    rw [List.nil_append] at hlists
    have hrenamed : Table.Lists ((rs.getLastD (.blank f.toFlowAliases)).table.renamed f.name)
        f.cells groups.flatten := ⟨hlists.table.columns, hlists.table.size⟩
    exact ⟨hlists.headers, hrenamed.rows⟩

def someFile : Value := .node (.built 0) (.stub fileLabel) []

/-- Two tables of one column each; a cell of the first has no value. -/
def echoQuery : Query :=
  { empty with
    tables := ⟨.insert (.insert .empty "a" (.ofColumn "a" (.any "a" #[.value someFile, .text "note"])))
      "b" (.ofColumn "b" (.predicate "b" .any))⟩
    prepared := true }

/-- The flow that finds each value to be its own sink. -/
def echo : Flow := ⟨⟨"a", "b", none, "c"⟩, fun v _ _ _ r => r.emit ⟨v, v, [v]⟩⟩

theorem flow_succeeds_iff_echo :
    ∃ q' w' t, echoQuery.prepared = true ∧ (echoQuery.run (flow WhereStage.nowhere echo)).run
        (.new WhereStage.nowhere ⟨"plain", [], []⟩) = ((.ok (), q'), w') ∧
      q'.tables.get? "a" = none ∧ q'.tables.get? "c" = some t ∧ t.headers = ["a", "b", "c"] ∧
      t.rows = .ok [[("a", .value someFile), ("b", .value someFile), ("c", .path [someFile])]] := by
  obtain ⟨hiff, hgives⟩ := @flow_succeeds_iff WhereStage.nowhere echoQuery
    (.new WhereStage.nowhere ⟨"plain", [], []⟩) echo rfl
  have hfits : echoQuery.FitsFlow echo (.any "a" #[.value someFile, .text "note"])
      (.predicate "b" .any) Flow.noBarrier :=
    ⟨by decide, ⟨_, rfl, rfl⟩, ⟨_, rfl, rfl⟩, rfl, rfl, rfl⟩
  have hblank : (FlowResult.blank echo.toFlowAliases).Lists echo.toFlowAliases [] :=
    FlowResult.lists_blank (by decide)
  obtain ⟨r, w₁, hrun, -⟩ := exists_of_wpE (hblank.wpE_emit
    (w := .new WhereStage.nowhere ⟨"plain", [], []⟩) ⟨someFile, someFile, [someFile]⟩)
  obtain ⟨q', w', hok⟩ := hiff.2 ⟨_, _, _, [r], w₁, hfits, .cons hrun (.nil r w₁)⟩
  obtain ⟨source, sink, barrier, rs, w₂, t, hfits', hanswers, -, -, hget, -, -, hrows⟩ := hgives q' w' hok
  obtain ⟨u, hu, hc⟩ := hfits'.oneSource
  cases hu
  cases hc
  cases hanswers with
  | cons hrun' hrest =>
    cases hrest
    have hemits := (wpE_of_run hrun').1 (FlowResult.wpE_emit_emits _ _ _)
    obtain ⟨hheaders, hrows⟩ := hrows _ (.cons hemits (.nil _))
    exact ⟨q', w', t, rfl, hok, hget "a", hget "c", hheaders, hrows⟩

end Query

end CodeGraph
