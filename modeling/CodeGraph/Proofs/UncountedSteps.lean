import CodeGraph.Proofs.Sights
import CodeGraph.Query.Turns

/-!
# Steps that leave the counts

Only scans, stages and snapshots change the counts of a world. What else a query does there leaves them as
they are, and so do the searches of flows: `Reachability`, and the one that pairs every source with every
sink. A call of a flow that does such a search in one turn is therefore a client's work
(`Work.Client.call_reachability`, `Work.Client.call_pairs`).
-/

namespace CodeGraph

variable {α β : Type}

namespace World

theorem leavesCounts_pure (x : α) : LeavesCounts (pure x) := fun _ => rfl

theorem LeavesCounts.bind {m : WorldM α} {f : α → WorldM β} (h : LeavesCounts m)
    (hf : ∀ x, LeavesCounts (f x)) : LeavesCounts (m >>= f) := fun w => by
  rw [StateT.run_bind]
  exact (hf _ _).trans (h w)

theorem leavesCounts_onGraph (m : StateM Context α) : LeavesCounts (onGraph m) := fun _ => rfl

theorem leavesCounts_record (r : Request) : LeavesCounts (record r) := fun _ => rfl

theorem leavesCounts_bindings : LeavesCounts bindings := fun _ => rfl

theorem LeavesCounts.bindE {m : QueryM α} {f : α → QueryM β} (h : LeavesCounts m.run)
    (hf : ∀ x, LeavesCounts (f x).run) : LeavesCounts (m >>= f).run := by
  rw [ExceptT.run_bind]
  refine h.bind fun x => ?_
  cases x with
  | ok x => exact hf x
  | error e => exact leavesCounts_pure _

theorem LeavesCounts.lift {m : WorldM α} (h : LeavesCounts m) : LeavesCounts (liftM m : QueryM α).run :=
  h.bind fun _ => leavesCounts_pure _

theorem leavesCounts_except (x : Except Error α) : LeavesCounts (liftM x : QueryM α).run := fun _ => rfl

theorem leavesCounts_resolving (m : Resolving α) : LeavesCounts (resolving m).run :=
  leavesCounts_onGraph m.run

theorem leavesCounts_isRegistered (id : VertexId) : LeavesCounts (isRegistered id).run := fun _ => rfl

theorem leavesCounts_valueOf? (k : NodeKey) : LeavesCounts (valueOf? k).run := fun _ => rfl

theorem leavesCounts_member (c : Column) (cell : Cell Ref) : LeavesCounts (member c cell).run := fun _ => rfl

theorem leavesCounts_outEdges (a : App) (id : VertexId) (label : Option String) :
    LeavesCounts (outEdges a id label).run :=
  (leavesCounts_record _).lift.bindE fun _ => leavesCounts_except _

theorem leavesCounts_vertex (a : App) (id : VertexId) : LeavesCounts (vertex a id).run :=
  (leavesCounts_record _).lift.bindE fun _ => leavesCounts_except _

theorem leavesCounts_foldlM {f : β → α → QueryM β} (hf : ∀ b x, LeavesCounts (f b x).run) (xs : List α)
    (b : β) : LeavesCounts (xs.foldlM f b).run := by
  induction xs generalizing b with
  | nil => exact leavesCounts_pure _
  | cons x xs ih =>
    rw [List.foldlM_cons]
    exact (hf b x).bindE ih

end World

open World

/-! ### Searches -/

def FlowAlgorithm.LeavesCounts (algorithm : FlowAlgorithm) : Prop :=
  ∀ v source sink barrier r, World.LeavesCounts (algorithm v source sink barrier r).run

theorem FlowResult.leavesCounts_emit (r : FlowResult) (x : Finding) : LeavesCounts (r.emit x).run :=
  leavesCounts_bindings.lift.bindE fun _ => (leavesCounts_except _).bindE fun _ => leavesCounts_pure _

theorem Flow.leavesCounts_pairs : pairs.LeavesCounts := by
  have hpair (v : Value) (barrier : Column) (r : FlowResult) (cell : Cell Ref) :
      LeavesCounts (pairWith v barrier r cell).run := by
    unfold pairWith
    cases cell.value? with
    | none => exact leavesCounts_pure _
    | some u =>
      refine (leavesCounts_member barrier cell).bindE fun blocked => ?_
      cases blocked with
      | true => exact leavesCounts_pure _
      | false => exact r.leavesCounts_emit _
  intro v source sink barrier r
  refine (leavesCounts_member source _).bindE fun isSource => ?_
  cases isSource with
  | true => exact (leavesCounts_except _).bindE fun _ => leavesCounts_foldlM (hpair v barrier) _ _
  | false => exact leavesCounts_pure _

namespace Reachability
variable {a : App} {sink barrier : Column} {start : Value} {trail : List Value}

theorem leavesCounts_valueOf (a : App) (id : VertexId) : LeavesCounts (valueOf a id).run := by
  unfold valueOf
  refine (leavesCounts_isRegistered id).bindE fun yes => ?_
  cases yes with
  | true => exact (leavesCounts_resolving _).bindE fun _ => leavesCounts_pure _
  | false =>
    refine (leavesCounts_vertex a id).bindE fun v => ?_
    cases v with
    | none => exact leavesCounts_pure _
    | some v => exact leavesCounts_valueOf? _

theorem leavesCounts_visit (id : VertexId) (result : FlowResult) :
    LeavesCounts (visit a sink barrier start trail id result).run := by
  rw [visit_eq]
  have hlook : LeavesCounts (look a sink barrier id).run := by
    refine (leavesCounts_valueOf a id).bindE fun found => ?_
    cases found with
    | none => exact leavesCounts_pure _
    | some v =>
      refine (leavesCounts_member barrier _).bindE fun blocked => ?_
      cases blocked with
      | true => exact leavesCounts_pure _
      | false => exact (leavesCounts_member sink _).bindE fun _ => leavesCounts_pure _
  refine hlook.bindE fun s => ?_
  cases s with
  | absent => exact leavesCounts_pure _
  | blocked => exact leavesCounts_pure _
  | entered v reached =>
    cases reached with
    | true => exact (result.leavesCounts_emit _).bindE fun _ => leavesCounts_pure _
    | false => exact leavesCounts_pure _

theorem leavesCounts_follow {before : Marks} (es : List Edge) (r : Grown before) :
    LeavesCounts (follow a sink barrier start trail before es r).run := by
  induction es generalizing r with
  | nil =>
    rw [follow]
    exact leavesCounts_pure _
  | cons e es ih =>
    cases h : r.1.marks.add? e.head with
    | none =>
      rw [follow_cons_of_none h]
      exact ih r
    | some marks =>
      rw [follow_cons_of_some h]
      exact (leavesCounts_visit _ _).bindE fun x => ih (r.met h x)

theorem leavesCounts_rounds (f : Reachability) (marks : Marks) (result : FlowResult) (us : List Waiting) :
    LeavesCounts (f.rounds a sink barrier start marks result us).run := by
  induction marks, result, us using rounds.induct f with
  | case1 =>
    rw [rounds]
    exact leavesCounts_pure _
  | case2 marks result u us hf ih =>
    rw [rounds_cons_of_follows hf]
    exact (leavesCounts_outEdges a _ _).bindE fun es => (leavesCounts_follow es _).bindE fun r => ih r.1 r.2
  | case3 marks result u us hf ih =>
    rw [rounds_cons_of_not_follows hf]
    exact ih

theorem leavesCounts_algorithm (f : Reachability) (a : App) : (f.algorithm a).LeavesCounts :=
  fun _ _ _ _ _ => (leavesCounts_resolving _).bindE fun _ => f.leavesCounts_rounds _ _ _

end Reachability

/-! ### Steps of stages -/

def Stage.LeavesCounts (m : StageM α) : Prop := ∀ q, World.LeavesCounts (m.run.run q)

namespace Stage

theorem LeavesCounts.bind {m : StageM α} {f : α → StageM β} (h : LeavesCounts m)
    (hf : ∀ x, LeavesCounts (f x)) : LeavesCounts (m >>= f) := fun q => by
  rw [ExceptT.run_bind, StateT.run_bind]
  refine (h q).bind fun r => ?_
  obtain ⟨r, q'⟩ := r
  cases r with
  | ok x => exact hf x q'
  | error e => exact leavesCounts_pure _

theorem leavesCounts_pure (x : α) : LeavesCounts (pure x) := fun _ _ => rfl

theorem leavesCounts_query : LeavesCounts query := fun _ _ => rfl

theorem leavesCounts_put (q : Query) : LeavesCounts (put q) := fun _ _ => rfl

theorem leavesCounts_update (f : Query → Query) : LeavesCounts (update f) := fun _ _ => rfl

theorem leavesCounts_except (x : Except Error α) : LeavesCounts (liftM x : StageM α) := fun _ _ => rfl

theorem leavesCounts_ofQueryM {m : QueryM α} (h : World.LeavesCounts m.run) : LeavesCounts (ofQueryM m) :=
  fun _ => h.bind fun _ => World.leavesCounts_pure _

theorem leavesCounts_ofWorldM {m : WorldM α} (h : World.LeavesCounts m) : LeavesCounts (ofWorldM m) :=
  fun _ => h

theorem leavesCounts_forM {f : String → StageM PUnit} (hf : ∀ x, LeavesCounts (f x)) (o : Option String) :
    LeavesCounts (o.forM f) := by
  cases o with
  | none => exact leavesCounts_pure _
  | some x => exact hf x

theorem leavesCounts_mapM {f : String → StageM α} (hf : ∀ x, LeavesCounts (f x)) (o : Option String) :
    LeavesCounts (o.mapM f) := by
  cases o with
  | none => exact leavesCounts_pure none
  | some x => exact (hf x).bind fun y => leavesCounts_pure (some y)

end Stage

namespace Query
open Stage

theorem leavesCounts_source (s : Source) : Stage.LeavesCounts (source s) :=
  leavesCounts_query.bind fun _ => (Stage.leavesCounts_except _).bind fun _ => leavesCounts_put _

theorem leavesCounts_takeTable (name : String) : Stage.LeavesCounts (takeTable name) :=
  leavesCounts_query.bind fun _ => (Stage.leavesCounts_except _).bind fun _ =>
    (leavesCounts_put _).bind fun _ => Stage.leavesCounts_pure _

theorem leavesCounts_giveTable (t : Table) : Stage.LeavesCounts (giveTable t) :=
  leavesCounts_query.bind fun _ => (Stage.leavesCounts_except _).bind fun _ => leavesCounts_put _

theorem leavesCounts_requireTable (name : String) : Stage.LeavesCounts (requireTable name) :=
  leavesCounts_query.bind fun _ => (Stage.leavesCounts_except _).bind fun _ => Stage.leavesCounts_pure _

end Query

/-- A call of a flow whose searches leave the counts may do each of them in one turn. -/
theorem Work.Client.call_inTurns {f : Flow} (h : f.algorithm.LeavesCounts) (a : App) (q : Query) :
    Client ((Call.flow f.inTurns).run a q) :=
  .call a _ q fun _ hf v source sink barrier r => by
    cases hf
    exact .step _ (h v source sink barrier r)

theorem Work.Client.call_reachability (f : Reachability) (a : App) (names : FlowAliases) (q : Query) :
    Client ((Call.flow (Flow.mk names (f.algorithm a)).inTurns).run a q) :=
  .call_inTurns (f.leavesCounts_algorithm a) a q

theorem Work.Client.call_pairs (a : App) (names : FlowAliases) (q : Query) :
    Client ((Call.flow (Flow.mk names Flow.pairs).inTurns).run a q) :=
  .call_inTurns Flow.leavesCounts_pairs a q

end CodeGraph
