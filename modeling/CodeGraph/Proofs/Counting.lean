import CodeGraph.Proofs.Balance
import CodeGraph.Proofs.Classification
import CodeGraph.Proofs.UncountedSteps

/-!
# Counts of what happens

A scan counts a page after it was accepted and its vertices after they have been gone through, and a stage
counts itself as the last thing that it does. So each of them leaves the balance of every count as it is, if
it succeeds and if it fails, and others may look at the counts and set them to zero between any two of its
turns (`Work.interleave_conserves_counts`).
-/

namespace CodeGraph

variable {α β : Type} {k : Counter}

namespace Work

/-! ### Scans -/

theorem balanced_foldlM {f : β → α → Work β} (hf : ∀ b x, (f b x).Balanced k) (xs : List α) (b : β) :
    (xs.foldlM f b).Balanced k := by
  induction xs generalizing b with
  | nil => exact balanced_done b
  | cons x xs ih =>
    rw [List.foldlM_cons]
    exact (hf b x).bind ih

theorem balanced_pages (s : GraphStore) (limit : Nat) (actions : List ScanAction)
    (columns : List DataColumn) (offset : Nat) : (pages s limit actions columns offset).Balanced k := by
  induction hn : s.extent - offset using Nat.strongRecOn generalizing offset columns with
  | ind n ih =>
    rw [pages]
    split
    · next e he =>
      refine (adds_page offset _).bind fun _ => ?_
      rw [Counter.number_page_error]
      exact (balanced_step (World.leavesCounts_onGraph _)).bind fun _ => balanced_done _
    · next vs hvs =>
      refine (adds_page offset _).bind fun _ => (adds_count .fetch 1).bind fun _ => ?_
      split
      · next hempty =>
        rw [Counter.number_page_ok, hempty]
        show _ = (0 : UInt64)
        cases k <;> rfl
      · next hne =>
        have hgone : (classifyPage actions columns vs).Balanced k :=
          balanced_foldlM (fun _ _ => balanced_step (World.leavesCounts_onGraph _)) vs columns
        have hlt : offset < s.extent :=
          Nat.lt_of_not_le fun hle => hne (s.ends offset limit vs hle hvs)
        have hpos : 0 < vs.length := List.length_pos_iff.mpr hne
        refine Adds.bind hgone fun columns => (adds_count .classify vs.length.toUInt64).bind fun _ => ?_
        refine (ih _ (by omega) columns _ rfl).congr fun _ => ?_
        rw [Counter.number_page_ok]
        cases k <;> simp

end Work

/-! ### Work that may fail -/

namespace Turns

theorem balanced_pure (a : α) : (pure a : Turns α).run.Balanced k := rfl

theorem balanced_bind {x : Turns α} {f : α → Turns β} (h : x.run.Balanced k)
    (hf : ∀ a, (f a).run.Balanced k) : (x >>= f).run.Balanced k := by
  refine Work.Balanced.bind h fun r => ?_
  cases r with
  | ok a => exact hf a
  | error e => exact Work.balanced_done _

theorem balanced_lift {x : Work α} (h : x.Balanced k) : (liftM x : Turns α).run.Balanced k :=
  h.bind fun _ => Work.balanced_done _

theorem balanced_except (x : Except Error α) : (liftM x : Turns α).run.Balanced k := Work.balanced_done _

theorem balanced_foldlM {f : β → α → Turns β} (hf : ∀ b x, (f b x).run.Balanced k) (xs : List α) (b : β) :
    (xs.foldlM f b).run.Balanced k := by
  induction xs generalizing b with
  | nil => exact balanced_pure b
  | cons x xs ih =>
    rw [List.foldlM_cons]
    exact balanced_bind (hf b x) ih

end Turns

theorem Work.balanced_scan (a : App) (limit : Nat) (actions : List ScanAction) :
    (scan a limit actions).run.Balanced k :=
  Turns.balanced_bind (Turns.balanced_lift (balanced_pages ..)) fun _ => Turns.balanced_except _

def FlowInTurns.Balanced (k : Counter) (f : FlowInTurns) : Prop :=
  ∀ v source sink barrier r, (f.find v source sink barrier r).run.Balanced k

theorem FlowInTurns.Balanced.apply {f : FlowInTurns} (h : f.Balanced k) (source sink : Table)
    (barrier : Option Table) : (f.apply source sink barrier).run.Balanced k := by
  have hadd (source sink barrier : Column) (r : FlowResult) (cell : Cell Ref) :
      (f.addFindings source sink barrier r cell).run.Balanced k := by
    unfold addFindings
    cases cell.value? with
    | none => exact Turns.balanced_pure r
    | some v => exact h v source sink barrier r
  have hrest (source sink barrier : Column) : (do
      let b ← (Work.step World.bindings : Work Bindings)
      let r ← FlowResult.new b f.toFlowAliases
      let r ← (← source.cells).toList.foldlM (f.addFindings source sink barrier) r
      return r.table : Turns Table).run.Balanced k :=
    Turns.balanced_bind (Turns.balanced_lift (Work.balanced_step World.leavesCounts_bindings)) fun _ =>
      Turns.balanced_bind (Turns.balanced_except _) fun _ =>
        Turns.balanced_bind (Turns.balanced_except _) fun _ =>
          Turns.balanced_bind (Turns.balanced_foldlM (hadd source sink barrier) _ _) fun _ =>
            Turns.balanced_pure _
  unfold FlowInTurns.apply
  refine Turns.balanced_bind (Turns.balanced_except _) fun source =>
    Turns.balanced_bind (Turns.balanced_except _) fun sink => ?_
  cases barrier with
  | none => exact hrest source sink Flow.noBarrier
  | some t => exact Turns.balanced_bind (Turns.balanced_except _) fun barrier => hrest source sink barrier

/-! ### Stages -/

namespace StageTurns

/-- The work adds this to the balance if it succeeds, and nothing if it fails. -/
def Pays (k : Counter) (c : UInt64) (m : StageTurns α) : Prop :=
  ∀ q, (m.run.run q).Adds k fun r => if r.1.isOk then c else 0

variable {c : UInt64}

theorem Pays.bind {x : StageTurns α} {f : α → StageTurns β} (h : x.Pays k 0) (hf : ∀ a, (f a).Pays k c) :
    (x >>= f).Pays k c := fun q => by
  refine Work.Adds.bind (h q) fun r => ?_
  obtain ⟨r, q⟩ := r
  cases r with
  | ok a => exact (hf a q).congr fun _ => (sub_zero _).symm
  | error e => exact sub_zero 0

theorem pays_pure (x : α) : (pure x : StageTurns α).Pays k 0 := fun _ => rfl

theorem pays_except (x : Except Error α) : (liftM x : StageTurns α).Pays k 0 := fun _ => ite_self 0

theorem pays_step {m : StageM α} (h : Stage.LeavesCounts m) : (step m).Pays k 0 :=
  fun q => (Work.balanced_step (h q)).congr fun _ => (ite_self 0).symm

theorem pays_ofTurns {x : Turns α} (h : x.run.Balanced k) : (ofTurns x).Pays k 0 := fun _ =>
  Work.Adds.bind h fun _ => by
    show (if _ then (0 : UInt64) else 0) - 0 = 0
    rw [ite_self, sub_zero]

theorem pays_count (k' : Counter) :
    (step (Stage.ofWorldM (World.count fun p => k'.set (k'.of p + 1) p))).Pays k (if k' = k then 1 else 0) :=
  fun _ => Work.adds_step fun w => Counter.of_add k' 1 w.profile

end StageTurns

namespace Work
open StageTurns

theorem pays_prepare (a : App) : (prepare a).Pays k 0 := by
  unfold prepare
  refine (pays_step Stage.leavesCounts_query).bind fun q => ?_
  split
  · exact pays_pure _
  · have hjoin (scanned : TableSet) : (do
        StageTurns.step (Stage.update fun q => { q with pending := .empty })
        let tables ← scanned.merge q.pending
        let tables ← q.tables.merge tables
        StageTurns.step (Stage.update fun q => { q with tables, prepared := true }) :
        StageTurns Unit).Pays k 0 :=
      (pays_step (Stage.leavesCounts_update _)).bind fun _ => (pays_except _).bind fun _ =>
        (pays_except _).bind fun _ => pays_step (Stage.leavesCounts_update _)
    split
    · exact hjoin .empty
    · exact (pays_ofTurns (balanced_scan ..)).bind hjoin

theorem pays_filter (a : App) (f : Filter) : (filter a f).Pays k (if .filter = k then 1 else 0) :=
  (pays_prepare a).bind fun _ => (pays_step (Query.leavesCounts_takeTable _)).bind fun _ =>
    (pays_step (Stage.leavesCounts_ofQueryM (World.leavesCounts_resolving _))).bind fun _ =>
      (pays_step (Query.leavesCounts_giveTable _)).bind fun _ => pays_count .filter

theorem pays_flow {f : FlowInTurns} (h : f.Balanced k) (a : App) :
    (flow a f).Pays k (if .flow = k then 1 else 0) := by
  refine (pays_prepare a).bind fun _ => (pays_step (Query.leavesCounts_requireTable _)).bind fun _ =>
    (pays_step (Query.leavesCounts_requireTable _)).bind fun _ =>
      (pays_step (Stage.leavesCounts_forM Query.leavesCounts_requireTable _)).bind fun _ => ?_
  refine (pays_step (Query.leavesCounts_takeTable _)).bind fun source =>
    (pays_step (Query.leavesCounts_takeTable _)).bind fun sink =>
      (pays_step (Stage.leavesCounts_mapM Query.leavesCounts_takeTable _)).bind fun barrier => ?_
  exact (pays_ofTurns (h.apply source sink barrier)).bind fun t =>
    (pays_step (Query.leavesCounts_giveTable _)).bind fun _ => pays_count .flow

theorem pays_select (a : App) (names : List String) :
    (select a names).Pays k (if .select = k then 1 else 0) := by
  refine (pays_prepare a).bind fun _ => (pays_step Stage.leavesCounts_query).bind fun q =>
    (pays_except _).bind fun t => (pays_step (Stage.leavesCounts_update _)).bind fun _ => ?_
  exact (pays_step (Stage.leavesCounts_ofWorldM World.leavesCounts_bindings)).bind fun b =>
    (pays_except _).bind fun result => (pays_step (Stage.leavesCounts_update _)).bind fun _ =>
      pays_count .select

theorem Call.balanced_run {c : Call} (h : ∀ f, c = .flow f → f.Balanced k) (a : App) (q : Query) :
    (c.run a q).Balanced k := by
  have hpays : (c.turns a).Pays k (if c.kind.counter = k then 1 else 0) := by
    cases c with
    | filter f => exact pays_filter a f
    | flow f => exact pays_flow (h f rfl) a
    | select names => exact pays_select a names
  refine Adds.bind (hpays q) fun r => (adds_tell _).bind fun _ => ?_
  rw [Counter.taken_ended, Counter.number_ended]
  show _ = (0 : UInt64)
  cases r.1.isOk <;> by_cases hk : c.kind.counter = k <;> simp [hk]

/-- Whatever goes on between its turns, a client leaves the balance as it is. -/
theorem Client.balanced {x : Work α} (h : Client x) : x.Balanced k := by
  induction h with
  | done a => exact balanced_done a
  | bind _ _ hx hf => exact hx.bind hf
  | step m h => exact balanced_step h
  | snapshot reset => exact balanced_snapshot reset
  | scan a limit actions => exact balanced_scan a limit actions
  | call a c q _ h => exact Call.balanced_run h a q

theorem balance_clients {clients : List (Work Unit)} (h : ∀ x ∈ clients, Client x) (schedule : List Nat)
    (s : Scene) : k.balance (interleave clients schedule s) = k.balance s := by
  have hdue : ∀ p ∈ clients.map fun x => (x, (0 : UInt64)), p.1.Adds k fun _ => p.2 := by
    intro p hp
    obtain ⟨x, hx, rfl⟩ := List.mem_map.1 hp
    exact (h x hx).balanced
  simpa [Function.comp_def] using balance_interleave hdue schedule s

/-- However clients take turns, in the end what has been taken of a count by snapshots that set it to zero
and what is left of it come to what there was to be counted, up to overflow. A page counts when it was not
rejected, a vertex when it is on such a page, and a stage when it succeeds. Scans, snapshots and stages that
are left alone do what they do without turns, and the end of a stage is logged as it is. -/
theorem interleave_conserves_counts {clients : List (Work Unit)} (h : ∀ x ∈ clients, Client x)
    (schedule : List Nat) (w : World) :
    (∀ k : Counter,
      k.taken (interleave clients schedule ⟨w, []⟩).log +
          (k.of (interleave clients schedule ⟨w, []⟩).world.profile).toNat ≡
        (k.of w.profile).toNat + k.number (interleave clients schedule ⟨w, []⟩).log [MOD 2 ^ 64]) ∧
    (∀ a limit actions, (scan a limit actions).alone = Scan.run a limit actions) ∧
    (∀ reset, (snapshot reset).alone = World.snapshot reset) ∧
    ∀ a (c : Call) q s, ∃ happened,
      (c.run a q).run s = (((q.run (c.stage a)).run s.world).1, ⟨((q.run (c.stage a)).run s.world).2,
        s.log ++ happened ++ [.ended c.kind ((q.run (c.stage a)).run s.world).1.1.isOk]⟩) :=
  ⟨fun _ => Counter.modEq_of_balance (balance_clients h schedule ⟨w, []⟩), alone_scan, alone_snapshot,
    Call.run_eq⟩

/-- Filters the files and selects them twice, which fails the second time. -/
def selectTwice (a : App) : Work Unit := do
  let (_, q) ← step (Query.empty.run (Query.source ⟨"f", .data, .any⟩))
  let (_, q) ← (Call.filter ⟨"f", .retain (.value .any)⟩).run a q
  let (_, q) ← (Call.select ["f"]).run a q
  let _ ← (Call.select ["f"]).run a q

/-- Finds for each file the path that ends where it starts. -/
def findStarts (a : App) : Work Unit := do
  let (_, q) ← step (Query.empty.run (Query.source ⟨"a", .data, .any⟩))
  let (_, q) ← step (q.run (Query.source ⟨"b", .data, .any⟩))
  let starts : FlowAlgorithm := fun v _ _ _ r => r.emit ⟨v, v, [v]⟩
  let _ ← (Call.flow (Flow.mk ⟨"a", "b", none, "c"⟩ starts).inTurns).run a q

def takeCounts : Work Unit := do
  let _ ← snapshot true

theorem client_selectTwice (a : App) : Client (selectTwice a) :=
  .bind (.step _ (Query.leavesCounts_source _ _)) fun _ =>
    .bind (.call a _ _ nofun) fun _ => .bind (.call a _ _ nofun) fun _ =>
      .bind (.call a _ _ nofun) fun _ => .done ()

theorem client_findStarts (a : App) : Client (findStarts a) :=
  .bind (.step _ (Query.leavesCounts_source _ _)) fun _ =>
    .bind (.step _ (Query.leavesCounts_source _ _)) fun _ =>
      .bind (.call_inTurns (fun _ _ _ _ r => r.leavesCounts_emit _) a _) fun _ => .done ()

theorem client_takeCounts : Client takeCounts := .bind (.snapshot true) fun _ => .done ()

/-- The counts are taken while a page has been counted and its vertices have not. -/
theorem interleave_conserves_counts_twoFiles :
    let a : App := ⟨.default, Scan.twoFiles.toStore⟩
    let s := interleave [selectTwice a, findStarts a, takeCounts]
      [0, 0, 0, 0, 2, 1, 1, 1, 0, 0, 0, 0, 2, 2, 2, 2, 2] ⟨.new a ⟨"plain", [], []⟩, []⟩
    [Counter.fetch, .classify, .filter, .flow, .select].map
        (fun k => (k.taken s.log, k.of s.world.profile, k.number s.log)) =
      [(1, 3, 4), (3, 3, 6), (0, 1, 1), (0, 1, 1), (0, 1, 1)] ∧
    ∀ k : Counter, k.taken s.log + (k.of s.world.profile).toNat ≡
      (k.of Profile.zero).toNat + k.number s.log [MOD 2 ^ 64] := by
  intro a s
  have hclients : ∀ x ∈ [selectTwice a, findStarts a, takeCounts], Client x := by
    simp only [List.forall_mem_cons, List.not_mem_nil, false_imp_iff, forall_true_iff, and_true]
    exact ⟨client_selectTwice a, client_findStarts a, client_takeCounts⟩
  exact ⟨by decide +kernel, (interleave_conserves_counts hclients _ _).1⟩

end Work

end CodeGraph
