import Mathlib.Logic.Relation
import CodeGraph.Proofs.Procedures

/-!
# Procedures within procedures

A `Program` is what a caller of procedures may do: call helpers, run queries whose bodies are programs
again, and decide how to go on, or fail, by what came back. `Program.run` runs its queries as procedures.
The same run is cut into moments by a machine (`Moment.step`) that keeps the queries that are running and
which helpers each of them has called; it takes a slot where a procedure takes it and gives it back where
a procedure does, and it comes to what the program comes to (`Moment.reaches_run`).

At every moment of a program that is started with free slots, at most one query is running, and the slot
of queries holds it as the calls have made it so far, or nothing if none is running
(`Moment.Disciplined.step`). A query that is run within another is refused: nothing of its body is done,
and neither its state nor anything in the world changes.
-/

namespace CodeGraph

namespace Procedure

/-! ### Helpers -/

/-- A call that a procedure makes, with or without an alias for what it makes. -/
inductive Helper where
  | nodes (p : ValuePredicate) (name : Option String)
  | predicate (p : ValuePredicate) (name : Option String)
  | filter (name : String) (p : FilterPredicate)
  | flow (algorithm : FlowAlgorithm) (source sink : String) (barrier name : Option String)
  | report (names : List String)

namespace Helper

def run (a : App) : Helper → QueryM (Option String)
  | nodes p name => return some (← Procedure.nodes p name)
  | predicate p name => return some (← Procedure.predicate p name)
  | filter name p => do
    Procedure.filter a name p
    return none
  | flow algorithm source sink barrier name =>
    return some (← Procedure.flow a algorithm source sink barrier name)
  | report names => do
    Procedure.report a names
    return none

def stageAlias : Option String → StageM String
  | some name => return name
  | none => Stage.ofWorldM World.freshAlias

def act (a : App) : Helper → StageM (Option String)
  | nodes p name => do
    let name ← stageAlias name
    Query.source ⟨name, .data, .contains p⟩
    return some name
  | predicate p name => do
    let name ← stageAlias name
    Query.source ⟨name, .predicate, .contains p⟩
    return some name
  | filter name p => do
    Query.filter a ⟨name, .retain p⟩
    return none
  | flow algorithm source sink barrier name => do
    let name ← stageAlias name
    Query.flow a ⟨⟨source, sink, barrier, name⟩, algorithm⟩
    return some name
  | report names => do
    Query.select a names
    return none

/-- The algorithm of the helper does not look at the slots, if it has one. -/
def SearchesSlotless : Helper → Prop
  | flow algorithm .. => algorithm.Slotless
  | _ => True

theorem performs_aliasOr (name : Option String) : Performs (aliasOr name) (stageAlias name) := by
  cases name with
  | some name => exact performs_pure name
  | none => exact fun q w _ => ⟨_, q, _, rfl, rfl, rfl⟩

theorem addSource_eq (mode : SourceMode) (p : ValuePredicate) (name : Option String) :
    addSource mode p name = do
      let name ← aliasOr name
      let _ ← addSource mode p (some name)
      return name := by
  unfold addSource
  cases name <;> simp [aliasOr]

theorem flow_eq (a : App) (algorithm : FlowAlgorithm) (source sink : String)
    (barrier name : Option String) :
    Procedure.flow a algorithm source sink barrier name = do
      let name ← aliasOr name
      let _ ← Procedure.flow a algorithm source sink barrier (some name)
      return name := by
  unfold Procedure.flow
  cases name <;> simp [aliasOr]

theorem performs {h : Helper} (hs : h.SearchesSlotless) (a : App) : Performs (h.run a) (h.act a) := by
  have hsource (mode : SourceMode) (p : ValuePredicate) (name : Option String) :
      Performs (do return some (← addSource mode p name)) (do
        let name ← stageAlias name
        Query.source ⟨name, mode, .contains p⟩
        return some name) := by
    rw [addSource_eq]
    simp only [bind_assoc, pure_bind]
    exact (performs_aliasOr name).bind fun name => by
      simpa only [bind_assoc, pure_bind] using
        (performs_addSource mode p name).bind fun _ => performs_pure (some name)
  cases h with
  | nodes p name => exact hsource .data p name
  | predicate p name => exact hsource .predicate p name
  | filter name p =>
    exact (performs_stage (Query.Call.slotless_run (c := .filter ⟨name, .retain p⟩) trivial a)).bind
      fun _ => performs_pure none
  | flow algorithm source sink barrier name =>
    show Performs (do return some (← Procedure.flow a algorithm source sink barrier name)) _
    rw [flow_eq]
    simp only [bind_assoc, pure_bind]
    exact (performs_aliasOr name).bind fun name => by
      simpa only [bind_assoc, pure_bind] using
        (performs_flow (f := ⟨⟨source, sink, barrier, name⟩, algorithm⟩) hs).bind
          fun _ => performs_pure (some name)
  | report names =>
    exact (performs_stage (Query.Call.slotless_run (c := .select names) trivial a)).bind
      fun _ => performs_pure none

/-- When the slots are free the step fails, and leaves them free. -/
def NeedsQuery {α : Type} (m : QueryM α) : Prop :=
  ∀ w : World, w.slots = .free → ∃ e w', m.run.run w = (.error e, w') ∧ w'.slots = .free

theorem needsQuery_current : NeedsQuery current := fun w hw => by
  refine ⟨.slotNotSet "query", w, ?_, hw⟩
  show (w.slots.query.get, w) = _
  rw [hw]
  rfl

theorem NeedsQuery.bind {α β : Type} {m : QueryM α} (hm : NeedsQuery m) (f : α → QueryM β) :
    NeedsQuery (m >>= f) := fun w hw => by
  obtain ⟨e, w', h, hw'⟩ := hm w hw
  refine ⟨e, w', ?_, hw'⟩
  rw [ExceptT.run_bind, StateT.run_bind, h]
  rfl

theorem needsQuery_aliasOr {α : Type} (name : Option String) {f : String → QueryM α}
    (hf : ∀ name, NeedsQuery (f name)) : NeedsQuery (aliasOr name >>= f) := fun w hw => by
  cases name with
  | some name => exact hf name w hw
  | none => exact hf _ _ hw

theorem needsQuery_run (a : App) (h : Helper) : NeedsQuery (h.run a) := by
  cases h with
  | nodes p name => exact (needsQuery_aliasOr name fun _ => needsQuery_current.bind _).bind _
  | predicate p name => exact (needsQuery_aliasOr name fun _ => needsQuery_current.bind _).bind _
  | filter name p => exact (needsQuery_current.bind _).bind _
  | flow algorithm source sink barrier name =>
    exact (needsQuery_aliasOr name fun _ => (needsQuery_current.bind _).bind _).bind _
  | report names => exact (needsQuery_current.bind _).bind _

end Helper

/-! ### The query around a body -/

variable {a : App} {q : Query} {w w' : World} {m : QueryM Unit}

/-- What a query comes to when its body has come to an outcome and its slot was released. -/
def handBack (outcome : Except Error Unit) : Except Error Query → Except Error Unit × Query
  | .ok q => (outcome, q)
  | .error e => (outcome.bind fun _ => .error e, .empty)

theorem run_toQueryable_of_refused {e : Error} (h : (hold q).run.run w = (.error e, w')) (name : String)
    (m : QueryM Unit) : (q.run (toQueryable name m).body).run w = ((.error e, q), w') := by
  have hS : ∀ Q E, E e q w' → wpS (toQueryable name m).body Q E q w := by
    intro Q E hE
    show wpS (Query.handOver >>= _) Q E q w
    rw [wpS_bind]
    show wpS (Stage.ofWorldM (hold q).run >>= _) Q E .empty w
    rw [wpS_bind, wpS_ofWorldM]
    unfold wp
    rw [h]
    exact hE
  have hthrow : (q.run (do Stage.put q; throw e : StageM Unit)).run w' = ((.error e, q), w') := rfl
  rw [← hthrow]
  exact run_eq_of_wpS fun Q E hE => hS Q E hE

theorem run_toQueryable_of_held {held done : World} {outcome : Except Error Unit}
    {released : Except Error Query} (hhold : (hold q).run.run w = (.ok (), held))
    (hbody : m.run.run held = (outcome, done)) (hrelease : release.run.run done = (released, w'))
    (name : String) :
    (q.run (toQueryable name m).body).run w = (handBack outcome released, w') := by
  have hS : ∀ Q E, wpS (do Stage.put (handBack outcome released).2; liftM (handBack outcome released).1)
      Q E q w' → wpS (toQueryable name m).body Q E q w := by
    intro Q E hQ
    show wpS (Query.handOver >>= _) Q E q w
    rw [wpS_bind]
    show wpS (Stage.ofWorldM (hold q).run >>= _) Q E .empty w
    rw [wpS_bind, wpS_ofWorldM]
    unfold wp
    rw [hhold]
    show wpS (Stage.ofWorldM m.run >>= _) Q E .empty held
    rw [wpS_bind, wpS_ofWorldM]
    unfold wp
    rw [hbody]
    show wpS (Stage.ofWorldM release.run >>= _) Q E .empty done
    rw [wpS_bind, wpS_ofWorldM]
    unfold wp
    rw [hrelease]
    cases released <;> cases outcome <;> exact hQ
  refine (run_eq_of_wpS hS).trans ?_
  cases released <;> cases outcome <;> rfl

/-- Where a query is running, no other can be. -/
theorem run_hold_of_inUse {p : Query} (h : w.slots.query.entry = some p) (q : Query) :
    (hold q).run.run w = (.error (.slotInUse w.slots.query.name), w) := by
  obtain ⟨graph, requests, profile, ⟨⟨name, entry⟩, source⟩, notes, madeUp⟩ := w
  cases h
  rfl

end Procedure

/-! ### Programs -/

open Procedure

/-- What a caller of procedures does next: it ends with an outcome, calls a helper, or runs a query whose
body is such a program on a state of its own; it goes on with what came back. -/
inductive Program where
  | finish (outcome : Except Error Unit)
  | call (h : Helper) (next : Except Error (Option String) → Program)
  | query (name : String) (q : Query) (body : Program) (next : Except Error Unit → Query → Program)

namespace Program

def run (a : App) : Program → QueryM Unit
  | finish outcome => ExceptT.mk (pure outcome)
  | call h next => ExceptT.mk do
    let x ← (h.run a).run
    ((next x).run a).run
  | query name q body next => ExceptT.mk do
    let (outcome, q) ← q.run (toQueryable name (body.run a)).body
    ((next outcome q).run a).run

/-- No flow that the program runs looks at the slots. -/
def SearchesSlotless : Program → Prop
  | finish _ => True
  | call h next => h.SearchesSlotless ∧ ∀ x, (next x).SearchesSlotless
  | query _ _ body next => body.SearchesSlotless ∧ ∀ outcome q, (next outcome q).SearchesSlotless

end Program

/-- A query whose body is being done: with what it was called, in which world, the helpers that its body
has called so far, and how the caller goes on. -/
structure Running where
  query : Query
  world : World
  calls : List Helper
  next : Except Error Unit → Query → Program

namespace Running

/-- The query and the world after the calls of the body, done to the query at hand, whether they failed
or not. -/
def came (a : App) (r : Running) : Query × World :=
  r.calls.foldl (fun s h => let out := (s.1.run (h.act a)).run s.2; (out.1.2, out.2)) (r.query, r.world)

theorem came_snoc (a : App) (r : Running) (h : Helper) :
    came a { r with calls := r.calls ++ [h] }
      = ((((r.came a).1.run (h.act a)).run (r.came a).2).1.2,
        (((r.came a).1.run (h.act a)).run (r.came a).2).2) := by
  rw [came, List.foldl_append]
  rfl

def calling (hs : List Helper) : List Running → List Running
  | [] => []
  | r :: rs => { r with calls := r.calls ++ hs } :: rs

theorem calling_nil (rs : List Running) : calling [] rs = rs := by
  cases rs with
  | nil => rfl
  | cons r rs => rw [calling, List.append_nil]

theorem calling_calling (hs hs' : List Helper) (rs : List Running) :
    calling hs' (calling hs rs) = calling (hs ++ hs') rs := by
  cases rs with
  | nil => rfl
  | cons r rs => rw [calling, calling, calling, List.append_assoc]

end Running

/-- A moment of a program: what is left of it, or of the body of the innermost query that is running,
the running queries from the innermost outwards, and the world. -/
structure Moment where
  program : Program
  running : List Running
  world : World

namespace Moment

/-- The next moment. A query holds its slot from the moment before the first of its body to the moment
after the last. -/
def step (a : App) : Moment → Option Moment
  | ⟨.finish _, [], _⟩ => none
  | ⟨.finish outcome, r :: rs, w⟩ =>
    let (released, w) := release.run.run w
    let (outcome, q) := handBack outcome released
    some ⟨r.next outcome q, rs, w⟩
  | ⟨.call h next, rs, w⟩ =>
    let (x, w) := (h.run a).run.run w
    some ⟨next x, Running.calling [h] rs, w⟩
  | ⟨.query _ q body next, rs, w⟩ =>
    match (hold q).run.run w with
    | (.ok _, held) => some ⟨body, ⟨q, w, [], next⟩ :: rs, held⟩
    | (.error e, w) => some ⟨next (.error e) q, rs, w⟩

/-- The second moment comes after the first, or is it. -/
def Reaches (a : App) : Moment → Moment → Prop :=
  Relation.ReflTransGen fun m m' => m.step a = some m'

section
variable {a : App} {r : Running} {rs : List Running} {w w' : World} {q : Query} {body : Program}
  {next : Except Error Unit → Query → Program}

theorem step_call (h : Helper) (next : Except Error (Option String) → Program) :
    step a ⟨.call h next, rs, w⟩
      = some ⟨next ((h.run a).run.run w).1, Running.calling [h] rs, ((h.run a).run.run w).2⟩ := rfl

theorem step_finish {released : Except Error Query} (h : release.run.run w = (released, w'))
    (outcome : Except Error Unit) :
    step a ⟨.finish outcome, r :: rs, w⟩
      = some ⟨r.next (handBack outcome released).1 (handBack outcome released).2, rs, w'⟩ := by
  simp only [step, h]

theorem step_query_of_held (h : (hold q).run.run w = (.ok (), w')) (name : String) :
    step a ⟨.query name q body next, rs, w⟩ = some ⟨body, ⟨q, w, [], next⟩ :: rs, w'⟩ := by
  simp only [step, h]

theorem step_query_of_refused {e : Error} (h : (hold q).run.run w = (.error e, w')) (name : String) :
    step a ⟨.query name q body next, rs, w⟩ = some ⟨next (.error e) q, rs, w'⟩ := by
  simp only [step, h]

end

/-- A program comes, moment by moment, to what it comes to when its queries are run as procedures. -/
theorem reaches_run (a : App) (p : Program) (rs : List Running) (w : World) :
    ∃ hs, Reaches a ⟨p, rs, w⟩
      ⟨.finish ((p.run a).run.run w).1, Running.calling hs rs, ((p.run a).run.run w).2⟩ := by
  induction p generalizing rs w with
  | finish outcome => exact ⟨[], by rw [Running.calling_nil]; exact .refl⟩
  | call h next ih =>
    obtain ⟨hs, hnext⟩ := ih ((h.run a).run.run w).1 (Running.calling [h] rs) ((h.run a).run.run w).2
    rw [Running.calling_calling] at hnext
    exact ⟨_, .head (step_call h next) hnext⟩
  | query name q body next ihbody ihnext =>
    rcases hcame : (q.run (toQueryable name (body.run a)).body).run w with ⟨⟨outcome, q'⟩, w₁⟩
    have hrun : ((Program.query name q body next).run a).run.run w
        = ((next outcome q').run a).run.run w₁ := by
      show StateT.run (q.run (toQueryable name (body.run a)).body >>= _) w = _
      rw [StateT.run_bind, hcame]
      rfl
    obtain ⟨hs, hnext⟩ := ihnext outcome q' rs w₁
    rw [hrun]
    refine ⟨hs, Relation.ReflTransGen.trans ?_ hnext⟩
    rcases hheld : (hold q).run.run w with ⟨e | u, held⟩
    · rw [run_toQueryable_of_refused hheld] at hcame
      cases hcame
      exact .single (step_query_of_refused hheld name)
    · obtain ⟨hs', hbody⟩ := ihbody (⟨q, w, [], next⟩ :: rs) held
      rcases hdone : (body.run a).run.run held with ⟨done, w₂⟩
      rcases hreleased : release.run.run w₂ with ⟨released, w₃⟩
      rw [run_toQueryable_of_held hheld hdone hreleased] at hcame
      obtain ⟨hback, rfl⟩ := Prod.mk.inj hcame
      rw [hdone] at hbody
      have hend : step a ⟨.finish done, ⟨q, w, hs', next⟩ :: rs, w₂⟩ = some ⟨next outcome q', rs, w₃⟩ := by
        rw [step_finish hreleased, hback]
      exact .head (step_query_of_held hheld name) (hbody.tail hend)

/-- At most one query is running. If none is, both slots are free; else the slot of queries holds the one
that is running, as the calls of its body have made it so far, and apart from that the world is the one
that the same calls leave on a query at hand. -/
structure Disciplined (a : App) (m : Moment) : Prop where
  searches : m.program.SearchesSlotless
  rest : ∀ r ∈ m.running, ∀ outcome q, (r.next outcome q).SearchesSlotless
  slots : (m.running = [] ∧ m.world.slots = .free) ∨
    ∃ r, m.running = [r] ∧ (r.came a).2.slots = .free ∧ m.world = (r.came a).2.holding (r.came a).1

variable {a : App} {m m' : Moment}

theorem disciplined_start {p : Program} {w : World} (hp : p.SearchesSlotless) (hw : w.slots = .free) :
    Disciplined a ⟨p, [], w⟩ :=
  ⟨hp, fun _ h => absurd h List.not_mem_nil, Or.inl ⟨rfl, hw⟩⟩

/-- What one moment keeps. -/
theorem Disciplined.step (hm : m.Disciplined a) (hstep : m.step a = some m') : m'.Disciplined a := by
  obtain ⟨p, rs, w⟩ := m
  obtain ⟨hp, hrest, ⟨hrs, hw⟩ | ⟨r, hrs, hfree, hw⟩⟩ := hm
  -- no query is running
  · obtain rfl : rs = [] := hrs
    replace hw : w.slots = .free := hw
    cases p with
    | finish outcome => cases hstep
    | call h next =>
      obtain ⟨e, w', hrun, hw'⟩ := Helper.needsQuery_run a h w hw
      rw [step_call, hrun] at hstep
      cases hstep
      exact ⟨hp.2 _, fun _ h => absurd h List.not_mem_nil, Or.inl ⟨rfl, hw'⟩⟩
    | query name q body next =>
      rw [step_query_of_held (run_hold (by rw [hw]; rfl) q)] at hstep
      cases hstep
      refine ⟨hp.1, fun r hr => ?_, Or.inr ⟨_, rfl, hw, rfl⟩⟩
      rw [List.mem_singleton.1 hr]
      exact hp.2
  -- one query is running
  · obtain rfl : rs = [r] := hrs
    obtain rfl : w = (r.came a).2.holding (r.came a).1 := hw
    have hr := hrest r (List.mem_singleton_self r)
    cases p with
    | finish outcome =>
      rw [step_finish (run_release (by rw [hfree]; rfl) _)] at hstep
      cases hstep
      exact ⟨hr .., fun _ h => absurd h List.not_mem_nil, Or.inl ⟨rfl, hfree⟩⟩
    | call h next =>
      obtain ⟨x, q', w', hact, hrun, hslots⟩ :=
        Helper.performs hp.1 a (r.came a).1 (r.came a).2 (by rw [hfree]; rfl)
      have hcame := r.came_snoc a h
      rw [hact] at hcame
      rw [step_call, hrun] at hstep
      cases hstep
      refine ⟨hp.2 _, fun r' hr' => ?_, Or.inr ⟨_, rfl, ?_, ?_⟩⟩
      · rw [List.mem_singleton.1 hr']
        exact hr
      · rw [hcame]
        exact hslots.trans hfree
      · rw [hcame]
    | query name q body next =>
      rw [step_query_of_refused (run_hold_of_inUse rfl q)] at hstep
      cases hstep
      exact ⟨hp.2 .., hrest, Or.inr ⟨r, rfl, hfree, rfl⟩⟩

/-- What a whole run keeps. -/
theorem Disciplined.reaches (hm : m.Disciplined a) (h : Reaches a m m') : m'.Disciplined a := by
  induction h with
  | refl => exact hm
  | tail _ hstep ih => exact ih.step hstep

end Moment

namespace Program

/-- A program that is started with free slots, whatever queries it runs within queries and wherever they
fail. It comes, moment by moment, to what it comes to with its queries run as procedures, and the slots
are free again. At every moment either no query is running and both slots are free, or just one is, and
the slot of queries holds it as the calls of its body have made it so far. Any other query is refused
then: there is no moment of its body, and its own state, the running query and everything else stay as
they were. When the body of the running query ends, with an error or not, the query is handed back and
both slots are free. -/
theorem nested_queries_refused (a : App) (p : Program) (w : World) (hp : p.SearchesSlotless)
    (hw : w.slots = .free) :
    (∃ outcome w', (p.run a).run.run w = (outcome, w') ∧
      Moment.Reaches a ⟨p, [], w⟩ ⟨.finish outcome, [], w'⟩ ∧ w'.slots = .free) ∧
    ∀ m, Moment.Reaches a ⟨p, [], w⟩ m →
      (m.running = [] ∧ m.world.slots = .free) ∨
      ∃ r, m.running = [r] ∧
        m.world.slots = ⟨⟨"query", some (r.came a).1⟩, ⟨"from", none⟩⟩ ∧
        (∀ (name : String) (q : Query) (body : QueryM Unit),
          (q.run (toQueryable name body).body).run m.world
            = ((.error (.slotInUse "query"), q), m.world)) ∧
        (∀ name q body next, m.program = .query name q body next →
          m.step a = some ⟨next (.error (.slotInUse "query")) q, [r], m.world⟩) ∧
        ∀ outcome, m.program = .finish outcome →
          m.step a = some ⟨r.next outcome (r.came a).1, [], (r.came a).2⟩ ∧
            (r.came a).2.slots = .free := by
  have hstart : Moment.Disciplined a ⟨p, [], w⟩ := Moment.disciplined_start hp hw
  refine ⟨?_, fun m hm => ?_⟩
  · obtain ⟨hs, hend⟩ := Moment.reaches_run a p [] w
    refine ⟨_, _, rfl, hend, ?_⟩
    rcases (hstart.reaches hend).slots with ⟨-, hfree⟩ | ⟨r, hr, -⟩
    · exact hfree
    · cases hr
  · rcases (hstart.reaches hm).slots with hfree | ⟨r, hr, hfree, hworld⟩
    · exact Or.inl hfree
    obtain ⟨program, running, world⟩ := m
    obtain rfl : running = [r] := hr
    obtain rfl : world = (r.came a).2.holding (r.came a).1 := hworld
    have hslots : ((r.came a).2.holding (r.came a).1).slots
        = ⟨⟨"query", some (r.came a).1⟩, ⟨"from", none⟩⟩ := by
      rw [World.holding, hfree]
      rfl
    have hrefused (q : Query) : (hold q).run.run ((r.came a).2.holding (r.came a).1)
        = (.error (.slotInUse "query"), (r.came a).2.holding (r.came a).1) := by
      rw [run_hold_of_inUse rfl, hslots]
    refine Or.inr ⟨r, rfl, hslots, fun name q body => run_toQueryable_of_refused (hrefused q) name body,
      ?_, ?_⟩
    · rintro name q body next rfl
      exact Moment.step_query_of_refused (hrefused q) name
    · rintro outcome rfl
      exact ⟨Moment.step_finish (run_release (by rw [hfree]; rfl) _) outcome, hfree⟩

/-- A query that runs another within its body, and fails if that fails. -/
def queryWithin (a : App) : Program :=
  .query "outer" .empty (.call (.nodes .any (some "a")) fun _ =>
    .query "inner" .empty (.call (.nodes .any (some "b")) fun _ => .finish (.ok ())) fun outcome _ =>
      match outcome with
      | .ok _ => .call (.flow (Reachability.algorithm ⟨none, none⟩ a) "a" "a" none none) fun _ =>
        .finish (.ok ())
      | .error e => .finish (.error e)) fun outcome _ => .finish outcome

theorem nested_queries_refused_within :
    ∃ s, InMemoryStore.Holds Query.mutualFiles s ∧ ∃ w',
      ((queryWithin ⟨.default, s.toStore⟩).run ⟨.default, s.toStore⟩).run.run
        (.new ⟨.default, s.toStore⟩ ⟨"plain", [], []⟩) = (.error (.slotInUse "query"), w') ∧
      w'.slots = .free := by
  obtain ⟨s, hs⟩ := InMemoryStore.exists_holds (d := Query.mutualFiles) (by decide) (by decide)
  have hp : (queryWithin ⟨.default, s.toStore⟩).SearchesSlotless := by
    refine ⟨⟨trivial, fun _ => ⟨⟨trivial, fun _ => trivial⟩, fun outcome _ => ?_⟩⟩, fun _ _ => trivial⟩
    cases outcome with
    | ok _ => exact ⟨Reachability.slotless_algorithm _ _, fun _ => trivial⟩
    | error e => exact trivial
  obtain ⟨outcome, w', hrun, -, hfree⟩ := (nested_queries_refused ⟨.default, s.toStore⟩
    (queryWithin ⟨.default, s.toStore⟩) (.new ⟨.default, s.toStore⟩ ⟨"plain", [], []⟩) hp rfl).1
  have houtcome : (((queryWithin ⟨.default, s.toStore⟩).run ⟨.default, s.toStore⟩).run.run
      (.new ⟨.default, s.toStore⟩ ⟨"plain", [], []⟩)).1 = .error (.slotInUse "query") := rfl
  rw [hrun] at houtcome
  obtain rfl : outcome = .error (.slotInUse "query") := houtcome
  exact ⟨s, hs, w', hrun, hfree⟩

end Program

end CodeGraph
