import CodeGraph.Proofs.Lockstep
import CodeGraph.Proofs.QueryState

/-!
# Steps that do not look at the slots

The slots of a world are there for queries that are written as procedures, and nothing that a query
does apart from that reads or writes them. `World.Slotless` says so of a step: whatever the slots hold,
it does the same and leaves them as they are. Steps put together from such steps are such steps, and so
are all calls on a query if the algorithms of its flows are (`Query.Call.slotless_run`). The search for
reachable vertices is one: with other slots it runs in lockstep (`Reachability.slotless_algorithm`).
-/

namespace CodeGraph

variable {α β γ : Type}

namespace World

def withSlots (w : World) (s : QueryContext Query) : World := { w with slots := s }

/-- The step does the same whatever the slots hold, and leaves them as they are. -/
def Slotless (m : WorldM α) : Prop :=
  ∀ w s, m.run (w.withSlots s) = ((m.run w).1, (m.run w).2.withSlots s)

theorem slotless_pure (x : α) : Slotless (pure x) := fun _ _ => rfl

theorem Slotless.bind {m : WorldM α} {f : α → WorldM β} (h : Slotless m) (hf : ∀ x, Slotless (f x)) :
    Slotless (m >>= f) := fun w s => by
  rw [StateT.run_bind, StateT.run_bind, h w s]
  exact hf _ _ s

theorem slotless_onGraph (m : StateM Context α) : Slotless (onGraph m) := fun _ _ => rfl

theorem slotless_record (r : Request) : Slotless (record r) := fun _ _ => rfl

theorem slotless_count (f : Profile → Profile) : Slotless (count f) := fun _ _ => rfl

theorem slotless_bindings : Slotless bindings := fun _ _ => rfl

theorem Slotless.slots_run {m : WorldM α} (h : Slotless m) (w : World) : (m.run w).2.slots = w.slots :=
  congrArg (·.2.slots) (h w w.slots)

/-! ### Steps that may fail -/

theorem Slotless.bindE {m : QueryM α} {f : α → QueryM β} (h : Slotless m.run)
    (hf : ∀ x, Slotless (f x).run) : Slotless (m >>= f).run := by
  rw [ExceptT.run_bind]
  refine h.bind fun x => ?_
  cases x with
  | ok x => exact hf x
  | error e => exact slotless_pure _

theorem Slotless.lift {m : WorldM α} (h : Slotless m) : Slotless (liftM m : QueryM α).run :=
  h.bind fun _ => slotless_pure _

theorem slotless_except (x : Except Error α) : Slotless (liftM x : QueryM α).run := fun _ _ => rfl

theorem slotless_resolving (m : Resolving α) : Slotless (resolving m).run := slotless_onGraph m.run

theorem slotless_isRegistered (id : VertexId) : Slotless (isRegistered id).run := fun _ _ => rfl

theorem slotless_valueOf? (k : NodeKey) : Slotless (valueOf? k).run := fun _ _ => rfl

theorem slotless_member (c : Column) (cell : Cell Ref) : Slotless (member c cell).run := fun _ _ => rfl

theorem slotless_outEdges (a : App) (id : VertexId) (label : Option String) :
    Slotless (outEdges a id label).run :=
  (slotless_record _).lift.bindE fun _ => slotless_except _

theorem slotless_vertex (a : App) (id : VertexId) : Slotless (vertex a id).run :=
  (slotless_record _).lift.bindE fun _ => slotless_except _

theorem slotless_foldlM {f : β → α → QueryM β} (hf : ∀ b x, Slotless (f b x).run) (xs : List α) (b : β) :
    Slotless (xs.foldlM f b).run := by
  induction xs generalizing b with
  | nil => exact slotless_pure _
  | cons x xs ih =>
    rw [List.foldlM_cons]
    exact (hf b x).bindE ih

end World

open World

/-! ### Searches -/

/-- The second world with slots `s` is the first. -/
def apart (s : QueryContext Query) : Course World World where
  Step _ q := q.1 = q.2.withSlots s
  trans _ h := h
  stay h := h

theorem World.Slotless.wpE₂_apart {m : QueryM α} (h : Slotless m.run) {s : QueryContext Query}
    {p : World × World} (hp : p.1 = p.2.withSlots s) :
    wpE₂ (apart s) m m (fun x y _ => x = y) p := by
  obtain ⟨w₀, w⟩ := p
  replace hp : w₀ = w.withSlots s := hp
  subst hp
  have hrun := h w s
  refine ⟨congrArg Prod.snd hrun, ?_⟩
  show Agree _ (m.run.run (w.withSlots s)).1 (m.run.run w).1
  rw [hrun]
  exact agree_eq_iff.2 rfl

theorem World.slotless_of_apart {m : QueryM α}
    (h : ∀ s w, wpE₂ (apart s) m m (fun x y _ => x = y) (w.withSlots s, w)) : Slotless m.run := by
  intro w s
  obtain ⟨hstep, hres⟩ := h s w
  exact Prod.ext (agree_eq_iff.1 hres) hstep

namespace FlowResult

theorem slotless_emit (r : FlowResult) (x : Finding) : Slotless (r.emit x).run :=
  slotless_bindings.lift.bindE fun _ => (slotless_except _).bindE fun _ => slotless_pure _

end FlowResult

def FlowAlgorithm.Slotless (algorithm : FlowAlgorithm) : Prop :=
  ∀ v source sink barrier r, World.Slotless (algorithm v source sink barrier r).run

namespace Reachability

theorem slotless_valueOf (a : App) (id : VertexId) : Slotless (valueOf a id).run := by
  unfold valueOf
  refine (slotless_isRegistered id).bindE fun yes => ?_
  cases yes with
  | true => exact (slotless_resolving _).bindE fun _ => slotless_pure _
  | false =>
    refine (slotless_vertex a id).bindE fun v => ?_
    cases v with
    | none => exact slotless_pure _
    | some v => exact slotless_valueOf? _

/-- The same search in a world and in that world with other slots. -/
def slotwise (a : App) (sink barrier : Column) (s : QueryContext Query) (origin : World × World) :
    Lockstep where
  app := a
  app' := a
  sink := sink
  sink' := sink
  barrier := barrier
  barrier' := barrier
  course := apart s
  origin := origin
  Pair _ v v' := v = v'
  Met _ v v' := v = v'
  Result _ r r' := r = r'
  pair_of_met h := h
  pair_step _ h := h
  result_step _ h := h
  vertexOf hp h := by
    subst h
    exact (slotless_resolving _).wpE₂_apart hp
  outEdges hp id label := (slotless_outEdges a id label).wpE₂_apart hp
  valueOf hp id := wpE₂_mono ((slotless_valueOf a id).wpE₂_apart hp) fun o o' _ _ h => by
    subst h
    cases o with
    | none => exact .none
    | some v => exact .some rfl
  barrier_member hp h := by
    subst h
    exact wpE₂_mono ((slotless_member _ _ : Slotless (member _ _).run).wpE₂_apart hp) fun _ _ _ _ h => ⟨h, rfl⟩
  sink_member hp h := by
    subst h
    exact (slotless_member _ _ : Slotless (member _ _).run).wpE₂_apart hp
  emit {p r r' x x'} hp hr hsource hsink hpath := by
    have hx : x = x' := by
      obtain ⟨source, sink, path⟩ := x
      rw [List.forall₂_eq_eq_eq] at hpath
      rw [show source = _ from hsource, show sink = _ from hsink, show path = _ from hpath]
    rw [hr, hx]
    exact (FlowResult.slotless_emit r' x').wpE₂_apart hp

theorem slotless_algorithm (f : Reachability) (a : App) : (f.algorithm a).Slotless := by
  intro v source sink barrier r
  refine slotless_of_apart fun s w => ?_
  exact (slotwise a sink barrier s (w.withSlots s, w)).wpE₂_algorithm
    (p := (w.withSlots s, w)) (Eq.refl (w.withSlots s)) (Eq.refl v) f (Eq.refl r) source source

end Reachability

/-! ### Scans and flows -/

namespace Scan
variable {actions : List ScanAction}

theorem slotless_pages (s : GraphStore) (limit : Nat) (columns : List DataColumn) (offset : Nat) :
    Slotless (pages s limit actions columns offset) := by
  induction hn : s.extent - offset using Nat.strongRecOn generalizing offset columns with
  | ind n ih =>
    rw [pages]
    split
    · exact (slotless_record _).bind fun _ => (slotless_onGraph _).bind fun _ => slotless_pure _
    · next page hpage =>
      refine (slotless_record _).bind fun _ => (slotless_count _).bind fun _ => ?_
      split
      · exact slotless_pure _
      · next hne =>
        refine (slotless_onGraph _).bind fun columns => (slotless_count _).bind fun _ => ?_
        -- a page that is not empty moves the offset towards the end
        have hlt : offset < s.extent :=
          Nat.lt_of_not_le fun hle => hne (s.ends offset limit page hle hpage)
        have hpos : 0 < page.length := List.length_pos_iff.mpr hne
        exact ih _ (by omega) columns _ rfl

theorem slotless_run (a : App) (limit : Nat) (actions : List ScanAction) :
    Slotless (run a limit actions).run :=
  (slotless_pages a.store limit _ 0).lift.bindE fun _ => slotless_except _

end Scan

theorem Flow.slotless_apply {f : Flow} (h : f.algorithm.Slotless) (source sink : Table)
    (barrier : Option Table) : Slotless (f.apply source sink barrier).run := by
  have hadd (source sink barrier : Column) (r : FlowResult) (cell : Cell Ref) :
      Slotless (f.addFindings source sink barrier r cell).run := by
    unfold addFindings
    cases cell.value? with
    | none => exact slotless_pure _
    | some v => exact h v source sink barrier r
  have hrest (source sink barrier : Column) : Slotless (do
      let r ← FlowResult.new (← World.bindings) f.toFlowAliases
      let r ← (← source.cells).toList.foldlM (f.addFindings source sink barrier) r
      return r.table : QueryM Table).run :=
    slotless_bindings.lift.bindE fun _ => (slotless_except _).bindE fun _ =>
      (slotless_except _).bindE fun _ => (slotless_foldlM (hadd source sink barrier) _ _).bindE fun _ =>
        slotless_pure _
  unfold apply
  refine (slotless_except _).bindE fun source => (slotless_except _).bindE fun sink => ?_
  cases barrier with
  | none => exact hrest source sink noBarrier
  | some t => exact (slotless_except t.onlyColumn).bindE fun barrier => hrest source sink barrier

/-! ### Calls -/

def Stage.Slotless (m : StageM α) : Prop := ∀ q, World.Slotless (m.run.run q)

namespace Stage

theorem Slotless.bind {m : StageM α} {f : α → StageM β} (h : Slotless m) (hf : ∀ x, Slotless (f x)) :
    Slotless (m >>= f) := fun q => by
  rw [ExceptT.run_bind, StateT.run_bind]
  refine (h q).bind fun out => ?_
  obtain ⟨x, q'⟩ := out
  cases x with
  | ok x => exact hf x q'
  | error e => exact slotless_pure _

theorem slotless_pure (x : α) : Slotless (pure x) := fun _ _ _ => rfl

theorem slotless_query : Slotless query := fun _ _ _ => rfl

theorem slotless_put (q : Query) : Slotless (put q) := fun _ _ _ => rfl

theorem slotless_update (f : Query → Query) : Slotless (update f) := fun _ _ _ => rfl

theorem slotless_except (x : Except Error α) : Slotless (liftM x : StageM α) := fun _ _ _ => rfl

theorem slotless_ofQueryM {m : QueryM α} (h : World.Slotless m.run) : Slotless (ofQueryM m) :=
  fun _ => h.bind fun _ => World.slotless_pure _

theorem slotless_ofWorldM {m : WorldM α} (h : World.Slotless m) : Slotless (ofWorldM m) :=
  fun q w s => by
    show ((Except.ok (m.run (w.withSlots s)).1, q), (m.run (w.withSlots s)).2) = _
    rw [h w s]
    rfl

theorem slotless_forM {f : String → StageM PUnit} (hf : ∀ x, Slotless (f x)) (o : Option String) :
    Slotless (o.forM f) := by
  cases o with
  | none => exact slotless_pure _
  | some x => exact hf x

theorem slotless_mapM {f : String → StageM α} (hf : ∀ x, Slotless (f x)) (o : Option String) :
    Slotless (o.mapM f) := by
  cases o with
  | none => exact slotless_pure none
  | some x => exact (hf x).bind fun y => slotless_pure (some y)

end Stage

namespace Query
open Stage

theorem slotless_prepare (a : App) : Stage.Slotless (prepare a) := by
  unfold prepare
  refine slotless_query.bind fun q => ?_
  split
  · exact Stage.slotless_pure _
  · have hjoin (scanned : TableSet) : Stage.Slotless (do
        Stage.update fun q => { q with pending := .empty }
        let tables ← scanned.merge q.pending
        let tables ← q.tables.merge tables
        Stage.update fun q => { q with tables, prepared := true }) :=
      (slotless_update _).bind fun _ => (Stage.slotless_except _).bind fun _ =>
        (Stage.slotless_except _).bind fun _ => slotless_update _
    split
    · exact hjoin .empty
    · exact (slotless_ofQueryM (Scan.slotless_run a a.batchSize q.actions)).bind hjoin

theorem slotless_takeTable (name : String) : Stage.Slotless (takeTable name) :=
  slotless_query.bind fun _ => (Stage.slotless_except _).bind fun _ => (slotless_put _).bind fun _ =>
    Stage.slotless_pure _

theorem slotless_giveTable (t : Table) : Stage.Slotless (giveTable t) :=
  slotless_query.bind fun _ => (Stage.slotless_except _).bind fun _ => slotless_put _

theorem slotless_requireTable (name : String) : Stage.Slotless (requireTable name) :=
  slotless_query.bind fun _ => (Stage.slotless_except _).bind fun _ => Stage.slotless_pure _

namespace Call

def SearchesSlotless : Call → Prop
  | flow f => f.algorithm.Slotless
  | _ => True

theorem slotless_rest {c : Call} (h : c.SearchesSlotless) : Stage.Slotless c.rest := by
  cases c with
  | source s => exact slotless_query.bind fun _ => (Stage.slotless_except _).bind fun _ => slotless_put _
  | filter f =>
    exact (slotless_takeTable f.name).bind fun t =>
      (slotless_ofQueryM (slotless_resolving _)).bind fun t => (slotless_giveTable t).bind fun _ =>
        slotless_ofWorldM (slotless_count _)
  | flow f =>
    refine (slotless_requireTable f.source).bind fun _ => (slotless_requireTable f.sink).bind fun _ =>
      (slotless_forM slotless_requireTable f.barrier).bind fun _ => ?_
    refine (slotless_takeTable f.source).bind fun source => (slotless_takeTable f.sink).bind fun sink =>
      (slotless_mapM slotless_takeTable f.barrier).bind fun barrier => ?_
    exact (slotless_ofQueryM (Flow.slotless_apply h source sink barrier)).bind fun t =>
      (slotless_giveTable _).bind fun _ => slotless_ofWorldM (slotless_count _)
  | select names =>
    refine slotless_query.bind fun q => (Stage.slotless_except _).bind fun t =>
      (slotless_update _).bind fun _ => (slotless_ofWorldM slotless_bindings).bind fun b => ?_
    exact (Stage.slotless_except _).bind fun _ => (slotless_update _).bind fun _ =>
      slotless_ofWorldM (slotless_count _)
  | handOver =>
    have hout : Stage.Slotless Query.handOver :=
      slotless_query.bind fun q => (slotless_put .empty).bind fun _ => Stage.slotless_pure q
    exact hout.bind fun _ => Stage.slotless_pure _

/-- Whatever the slots hold, a call does the same and leaves them as they are. -/
theorem slotless_run {c : Call} (h : c.SearchesSlotless) (a : App) : Stage.Slotless (c.run a) := by
  cases hp : c.prepares with
  | true =>
    rw [run_of_prepares hp]
    exact (slotless_prepare a).bind fun _ => slotless_rest h
  | false =>
    rw [run_of_not_prepares hp]
    exact slotless_rest h

end Call

end Query

end CodeGraph
