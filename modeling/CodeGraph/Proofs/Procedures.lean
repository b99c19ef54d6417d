import CodeGraph.Proofs.ReachabilityQuery
import CodeGraph.Proofs.Slots
import CodeGraph.Query.Procedure

/-!
# Procedures do what the calls do

A procedure works on a query that the world holds in a slot, and stages work on a query that is at
hand. `Procedure.Performs` says that a procedure does to the query that is held what a stage does to
the query at hand, and all else alike; it is kept when both go on. Each `Statement` of a procedure
performs the call that it stands for, so a query written as a procedure comes to what the calls come to,
and the slots are as they were (`Procedure.toQueryable_eq_calls`).
-/

namespace CodeGraph

variable {α β γ : Type}

theorem Slot.entry_eq_none {s : Slot α} (h : s.inUse = false) : s.entry = none :=
  Option.isNone_iff_eq_none.1 (Option.isSome_eq_false_iff.1 h)

def World.holding (w : World) (q : Query) : World :=
  w.withSlots { w.slots with query := { w.slots.query with entry := some q } }

namespace Procedure
variable {a : App} {q : Query} {w : World}

/-- In a world that holds the query, the procedure does what the stage does, and the slots are left as
they are. -/
def Performs (m : QueryM α) (n : StageM α) : Prop :=
  ∀ (q : Query) (w : World), w.slots.source.entry = none →
    ∃ x q' w', (q.run n).run w = ((x, q'), w') ∧ m.run.run (w.holding q) = (x, w'.holding q') ∧
      w'.slots = w.slots

theorem run_bind_ok {n : StageM α} {x : α} {q' : Query} {w' : World} (g : α → StageM β)
    (h : (q.run n).run w = ((.ok x, q'), w')) : (q.run (n >>= g)).run w = (q'.run (g x)).run w' := by
  show ((n >>= g).run.run q).run w = _
  rw [ExceptT.run_bind, StateT.run_bind, StateT.run_bind,
    show (n.run.run q).run w = ((.ok x, q'), w') from h]
  rfl

theorem run_bind_error {n : StageM α} {e : Error} {q' : Query} {w' : World} (g : α → StageM β)
    (h : (q.run n).run w = ((.error e, q'), w')) :
    (q.run (n >>= g)).run w = ((.error e, q'), w') := by
  show ((n >>= g).run.run q).run w = _
  rw [ExceptT.run_bind, StateT.run_bind, StateT.run_bind,
    show (n.run.run q).run w = ((.error e, q'), w') from h]
  rfl

theorem performs_pure (x : α) : Performs (pure x) (pure x) :=
  fun q w _ => ⟨.ok x, q, w, rfl, rfl, rfl⟩

theorem Performs.bind {m : QueryM α} {n : StageM α} {f : α → QueryM β} {g : α → StageM β}
    (h : Performs m n) (hf : ∀ x, Performs (f x) (g x)) : Performs (m >>= f) (n >>= g) := by
  intro q w hw
  obtain ⟨x, q₁, w₁, hn, hm, hslots⟩ := h q w hw
  rw [ExceptT.run_bind, StateT.run_bind, hm]
  cases x with
  | error e => exact ⟨.error e, q₁, w₁, run_bind_error g hn, rfl, hslots⟩
  | ok x =>
    obtain ⟨y, q₂, w₂, hg, hf, hslots'⟩ := hf x q₁ w₁ (hslots ▸ hw)
    exact ⟨y, q₂, w₂, (run_bind_ok g hn).trans hg, hf, hslots'.trans hslots⟩

theorem Performs.after {m : QueryM β} {f : β → QueryM α} {n : StageM α}
    (hm : ∀ (q : Query) (w : World), w.slots.source.entry = none →
      ∃ x, m.run.run (w.holding q) = (.ok x, w.holding q))
    (hf : ∀ x, Performs (f x) n) : Performs (m >>= f) n := by
  intro q w hw
  obtain ⟨x, hx⟩ := hm q w hw
  rw [ExceptT.run_bind, StateT.run_bind, hx]
  exact hf x q w hw

theorem run_current (q : Query) (w : World) : current.run.run (w.holding q) = (.ok q, w.holding q) := rfl

theorem run_stage {n : StageM α} (h : Stage.Slotless n) (q : Query) (w : World) :
    ∃ x q' w', (q.run n).run w = ((x, q'), w') ∧
      (stage n).run.run (w.holding q) = (x, w'.holding q') ∧ w'.slots = w.slots := by
  rcases hn : (q.run n).run w with ⟨⟨x, q'⟩, w'⟩
  have hslots : w'.slots = w.slots := by
    rw [← (h q).slots_run w]
    exact congrArg (·.2.slots) hn.symm
  have hheld : (q.run n).run (w.holding q) = ((x, q'), w'.holding q) := by
    have hrun := h q w (w.holding q).slots
    rw [show (n.run.run q).run w = ((x, q'), w') from hn] at hrun
    show (n.run.run q).run (w.holding q) = ((x, q'), w'.withSlots _)
    rw [hslots]
    exact hrun
  refine ⟨x, q', w', rfl, ?_, hslots⟩
  unfold stage
  rw [ExceptT.run_bind, StateT.run_bind, run_current]
  show (ExceptT.run (ExceptT.lift (q.run n) >>= _)).run (w.holding q) = _
  rw [ExceptT.run_bind, StateT.run_bind, ExceptT.run_lift, StateT.run_map, hheld]
  cases x <;> rfl

theorem performs_stage {n : StageM α} (h : Stage.Slotless n) : Performs (stage n) n :=
  fun q w _ => run_stage h q w

theorem run_claimSource (hw : w.slots.source.entry = none) : claimSource.run.run w = (.ok (), w) := by
  obtain ⟨graph, requests, profile, ⟨query, ⟨name, entry⟩⟩, notes, madeUp⟩ := w
  cases hw
  rfl

theorem performs_addSource (mode : SourceMode) (p : ValuePredicate) (name : String) :
    Performs (do let _ ← addSource mode p (some name)) (Query.source ⟨name, mode, .contains p⟩) := by
  have hsource : Stage.Slotless (Query.source ⟨name, mode, .contains p⟩) :=
    Query.Call.slotless_rest (c := .source _) trivial
  unfold addSource aliasOr
  simp only [bind_assoc, pure_bind, bind_pure_unit]
  refine Performs.after (fun q w _ => ⟨q, run_current q w⟩) fun _ => ?_
  exact Performs.after (fun q w hw => ⟨(), run_claimSource hw⟩) fun _ => performs_stage hsource

theorem performs_flow {a : App} {f : Flow} (h : f.algorithm.Slotless) :
    Performs (do let _ ← flow a f.algorithm f.source f.sink f.barrier (some f.name)) (Query.flow a f) := by
  unfold flow aliasOr
  simp only [bind_assoc, pure_bind, bind_pure_unit]
  exact performs_stage (Query.Call.slotless_run (c := .flow f) h a)

/-! ### Statements -/

/-- A line of a procedure, with an alias for whatever it makes. -/
inductive Statement where
  | nodes (p : ValuePredicate) (name : String)
  | predicate (p : ValuePredicate) (name : String)
  | filter (name : String) (p : FilterPredicate)
  | flow (algorithm : FlowAlgorithm) (source sink : String) (barrier : Option String) (name : String)
  | report (names : List String)

namespace Statement

def run (a : App) : Statement → QueryM Unit
  | nodes p name => do let _ ← Procedure.nodes p (some name)
  | predicate p name => do let _ ← Procedure.predicate p (some name)
  | filter name p => Procedure.filter a name p
  | flow algorithm source sink barrier name => do
    let _ ← Procedure.flow a algorithm source sink barrier (some name)
  | report names => Procedure.report a names

def call : Statement → Query.Call
  | nodes p name => .source ⟨name, .data, .contains p⟩
  | predicate p name => .source ⟨name, .predicate, .contains p⟩
  | filter name p => .filter ⟨name, .retain p⟩
  | flow algorithm source sink barrier name => .flow ⟨⟨source, sink, barrier, name⟩, algorithm⟩
  | report names => .select names

theorem performs {s : Statement} (h : s.call.SearchesSlotless) (a : App) :
    Performs (s.run a) (s.call.run a) := by
  have hcall := Query.Call.slotless_run h a
  cases s with
  | nodes p name => exact performs_addSource .data p name
  | predicate p name => exact performs_addSource .predicate p name
  | filter name p => exact performs_stage hcall
  | flow algorithm source sink barrier name =>
    exact performs_flow (f := ⟨⟨source, sink, barrier, name⟩, algorithm⟩) h
  | report names => exact performs_stage hcall

theorem performs_forM {statements : List Statement} (h : ∀ s ∈ statements, s.call.SearchesSlotless)
    (a : App) : Performs (statements.forM (·.run a)) (statements.forM fun s => s.call.run a) := by
  induction statements with
  | nil => exact performs_pure _
  | cons s statements ih =>
    obtain ⟨hs, hrest⟩ := List.forall_mem_cons.1 h
    exact (performs hs a).bind fun _ => ih hrest

end Statement

/-! ### The query around a procedure -/

theorem run_hold (hw : w.slots.query.entry = none) (q : Query) :
    (hold q).run.run w = (.ok (), w.holding q) := by
  obtain ⟨graph, requests, profile, ⟨⟨name, entry⟩, source⟩, notes, madeUp⟩ := w
  cases hw
  rfl

theorem run_release (hw : w.slots.query.entry = none) (q : Query) :
    release.run.run (w.holding q) = (.ok q, w) := by
  obtain ⟨graph, requests, profile, ⟨⟨name, entry⟩, source⟩, notes, madeUp⟩ := w
  cases hw
  rfl

/-- A query written as a procedure does what its procedure performs, if both slots are free. -/
theorem run_toQueryable {m : QueryM Unit} {n : StageM Unit} (h : Performs m n) (name : String)
    (hquery : w.slots.query.entry = none) (hsource : w.slots.source.entry = none) (q : Query) :
    (q.run (toQueryable name m).body).run w = (q.run n).run w ∧
      ((q.run n).run w).2.slots = w.slots := by
  obtain ⟨x, q', w', hn, hm, hslots⟩ := h q w hsource
  refine ⟨run_eq_of_wpS fun Q E hQ => ?_, by rw [hn]; exact hslots⟩
  unfold wpS wp at hQ
  rw [show (n.run.run q).run w = ((x, q'), w') from hn] at hQ
  unfold toQueryable
  show wpS (Query.handOver >>= _) Q E q w
  rw [wpS_bind]
  show wpS (Stage.ofWorldM (hold q).run >>= _) Q E .empty w
  rw [wpS_bind, wpS_ofWorldM]
  unfold wp
  rw [run_hold hquery]
  show wpS (Stage.ofWorldM m.run >>= _) Q E .empty (w.holding q)
  rw [wpS_bind, wpS_ofWorldM]
  unfold wp
  rw [hm]
  show wpS (Stage.ofWorldM release.run >>= _) Q E .empty (w'.holding q')
  rw [wpS_bind, wpS_ofWorldM]
  unfold wp
  rw [run_release (hslots ▸ hquery)]
  cases x <;> exact hQ

/-- A query that is written as a procedure comes to what the calls come to that its lines stand for, one
after the other up to the first that fails, if both slots are free and no flow looks at them; and they
are free again afterwards, whether a line has failed or not. -/
theorem toQueryable_eq_calls (a : App) (name : String) (statements : List Statement) (q : Query)
    (w : World) (hquery : w.slots.query.inUse = false) (hsource : w.slots.source.inUse = false)
    (hflows : ∀ s ∈ statements, s.call.SearchesSlotless) :
    ∃ out q' w',
      (q.run (toQueryable name (statements.forM (·.run a))).body).run w = ((out, q'), w') ∧
      (q.run (statements.forM fun s => s.call.run a)).run w = ((out, q'), w') ∧
      w'.slots.query.inUse = false ∧ w'.slots.source.inUse = false := by
  have h := Statement.performs_forM hflows a
  obtain ⟨hrun, hslots⟩ :=
    run_toQueryable h name (Slot.entry_eq_none hquery) (Slot.entry_eq_none hsource) q
  exact ⟨_, _, _, hrun, rfl, (congrArg (·.query.inUse) hslots).trans hquery,
    (congrArg (·.source.inUse) hslots).trans hsource⟩

def neighbours (a : App) : List Statement :=
  [.nodes .any "a", .nodes .any "b",
    .flow (Reachability.algorithm ⟨some "include", some 1⟩ a) "a" "b" none "c", .report ["a", "b"]]

theorem toQueryable_eq_calls_neighbours :
    ∃ s, InMemoryStore.Holds Query.mutualFiles s ∧ ∃ out q' w',
      (Query.empty.run (toQueryable "inclusions"
        ((neighbours ⟨.default, s.toStore⟩).forM (·.run ⟨.default, s.toStore⟩))).body).run
        (.new ⟨.default, s.toStore⟩ ⟨"plain", [], []⟩) = ((out, q'), w') ∧
      (Query.empty.run
        ((neighbours ⟨.default, s.toStore⟩).forM fun x => x.call.run ⟨.default, s.toStore⟩)).run
        (.new ⟨.default, s.toStore⟩ ⟨"plain", [], []⟩) = ((out, q'), w') ∧
      w'.slots.query.inUse = false ∧ w'.slots.source.inUse = false := by
  obtain ⟨s, hs⟩ := InMemoryStore.exists_holds (d := Query.mutualFiles) (by decide) (by decide)
  have hflows : ∀ x ∈ neighbours ⟨.default, s.toStore⟩, x.call.SearchesSlotless := by
    simp only [neighbours, List.forall_mem_cons, List.not_mem_nil, false_imp_iff, implies_true, and_true]
    exact ⟨trivial, trivial, Reachability.slotless_algorithm _ _, trivial⟩
  exact ⟨s, hs, toQueryable_eq_calls ⟨.default, s.toStore⟩ "inclusions" _ .empty
    (.new ⟨.default, s.toStore⟩ ⟨"plain", [], []⟩) rfl rfl hflows⟩

end Procedure

end CodeGraph
