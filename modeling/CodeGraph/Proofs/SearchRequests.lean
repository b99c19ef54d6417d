import CodeGraph.Proofs.DepthLimit
import Mathlib.Data.List.Perm.Subperm

/-!
# What a search asks of its store

The marks of a search grow with each vertex that it looks at, so it looks at none twice, and what waits
once never waits again. A `Journey` tells the moves of a search one by one: the vertices whose edges are
asked for, and those looked at, with what the registry knew of them at that moment. The requests are those
of the moves, and on a graph in memory there are few of them (`Reachability.search_requests`).
-/

namespace CodeGraph

def Request.edgesOf? : Request → Option (VertexId × Option String)
  | .edges id label => some (id, label)
  | _ => none

namespace Reachability

/-- What a search does next. -/
inductive Move where
  /-- It asks for the edges of a vertex. -/
  | asked (id : VertexId)
  /-- It looks at a vertex that is registered or is not. -/
  | looked (id : VertexId) (registered : Bool) (s : Sight)

namespace Move
variable {label l : Option String} {id : VertexId} {m : Move} {moves : List Move}

def requests (label : Option String) : Move → List Request
  | asked id => [.edges id label]
  | looked _ true _ => []
  | looked id false _ => [.vertex id]

def asked? : Move → Option VertexId
  | asked id => some id
  | looked .. => none

def met? : Move → Option VertexId
  | asked _ => none
  | looked id .. => some id

def entered? : Move → Option VertexId
  | looked id _ (.entered ..) => some id
  | _ => none

theorem edges_mem_requests : .edges id l ∈ m.requests label ↔ l = label ∧ m.asked? = some id := by
  rcases m with _ | ⟨_, _ | _, _⟩ <;> simp [requests, asked?, and_comm, eq_comm]

theorem vertex_mem_requests : .vertex id ∈ m.requests label ↔ ∃ s, m = looked id false s := by
  rcases m with _ | ⟨_, _ | _, _⟩ <;> simp [requests, eq_comm]

theorem page_not_mem_requests {offset : Nat} {n : Option Nat} : .page offset n ∉ m.requests label := by
  rcases m with _ | ⟨_, _ | _, _⟩ <;> simp [requests]

theorem filterMap_requests (label : Option String) (moves : List Move) :
    (moves.flatMap (requests label)).filterMap Request.edgesOf? =
      (moves.filterMap asked?).map (·, label) := by
  induction moves with
  | nil => rfl
  | cons m moves ih =>
    rw [List.flatMap_cons, List.filterMap_append, ih]
    rcases m with _ | ⟨_, _ | _, _⟩ <;> rfl

theorem length_requests_le (label : Option String) (moves : List Move) :
    (moves.flatMap (requests label)).length ≤
      (moves.filterMap asked?).length + (moves.filterMap met?).length := by
  induction moves with
  | nil => exact Nat.le_refl _
  | cons m moves ih =>
    rw [List.flatMap_cons, List.length_append, ← List.singleton_append, List.filterMap_append,
      List.filterMap_append, List.length_append, List.length_append]
    have hone : (m.requests label).length ≤
        ([m].filterMap asked?).length + ([m].filterMap met?).length := by
      rcases m with _ | ⟨_, _ | _, _⟩ <;> simp [requests, asked?, met?]
    omega

theorem sublist_entered (moves : List Move) :
    (moves.filterMap entered?).Sublist (moves.filterMap met?) := by
  induction moves with
  | nil => exact .slnil
  | cons m moves ih =>
    rcases m with _ | ⟨id, _, _ | _ | _⟩
    · exact ih
    · exact ih.cons id
    · exact ih.cons id
    · exact ih.cons_cons id

/-- Moves that ask for no edges twice and look at no vertex twice make no request twice. -/
theorem nodup_requests (ha : (moves.filterMap asked?).Nodup) (hm : (moves.filterMap met?).Nodup) :
    (moves.flatMap (requests label)).Nodup := by
  induction moves with
  | nil => exact List.nodup_nil
  | cons m moves ih =>
    cases m with
    | asked id =>
      obtain ⟨hid, ha⟩ := List.nodup_cons.1 ha
      refine List.nodup_cons.2 ⟨fun h => hid ?_, ih ha hm⟩
      obtain ⟨m, hm, hr⟩ := List.mem_flatMap.1 h
      exact List.mem_filterMap.2 ⟨m, hm, (edges_mem_requests.1 hr).2⟩
    | looked id registered s =>
      obtain ⟨hid, hrest⟩ := List.nodup_cons.1 hm
      cases registered with
      | true => exact ih ha hrest
      | false =>
        refine List.nodup_cons.2 ⟨fun h => hid ?_, ih ha hrest⟩
        obtain ⟨m, hm, hr⟩ := List.mem_flatMap.1 h
        obtain ⟨s, rfl⟩ := vertex_mem_requests.1 hr
        exact List.mem_filterMap.2 ⟨_, hm, rfl⟩

end Move

/-! ### Journeys -/

variable {f : Reachability} {a : App} {sink barrier : Column} {start : Value} {id : VertexId}
  {first u : Waiting} {due done us : List Waiting} {here : Option Waiting} {moves : List Move}
  {marks : Marks} {al : FlowAliases} {result : FlowResult} {w w' w₀ w₁ : World}

/-- The way of a search from one world to another: all that has waited in the order in which it was met,
what has been taken last, and the moves. Only the end of an edge of what was taken last is looked at. -/
inductive Journey (f : Reachability) (a : App) (sink barrier : Column) (first : Waiting) (w : World) :
    List Waiting → Option Waiting → List Move → World → Prop where
  | start : Journey f a sink barrier first w [first] none [] w
  | asked {due : List Waiting} {here : Option Waiting} {moves : List Move} {u : Waiting} {es : List Edge}
    {w₁ w₂ : World} : Journey f a sink barrier first w due here moves w₁ → u ∈ due →
    (World.outEdges a u.vertex f.label).run.run w₁ = (.ok es, w₂) →
    Journey f a sink barrier first w due (some u) (moves ++ [.asked u.vertex]) w₂
  | looked {due : List Waiting} {moves : List Move} {u : Waiting} {id : VertexId} {s : Sight}
    {w₁ w₂ : World} : Journey f a sink barrier first w due (some u) moves w₁ →
    id ∈ heads a f.label u.vertex → (look a sink barrier id).run.run w₁ = (.ok s, w₂) →
    Journey f a sink barrier first w (due ++ (s.next id u.trail).toList) (some u)
      (moves ++ [.looked id (w₁.graph.registry.contains id) s]) w₂

theorem wpE_look_requests (w : World) :
    wpE (look a sink barrier id) (fun s w' => w'.requests.toList = w.requests.toList ++
      (Move.looked id (w.graph.registry.contains id) s).requests f.label) (fun _ _ => True) w := by
  have hmembers : ∀ (v : Value) (w₁ : World) (log : List Request), w₁.requests.toList = log →
      wpE (do
        if ← World.member barrier (.value v) then return Sight.blocked v
        else return Sight.entered v (← World.member sink (.value v)) : QueryM Sight)
        (fun _ w' => w'.requests.toList = log) (fun _ _ => True) w₁ := by
    intro v w₁ log hlog
    rw [wpE_bind, wpE_member]
    unfold wp
    dsimp only
    split
    · exact hlog
    · rw [wpE_bind, wpE_member]
      exact hlog
  unfold look valueOf
  rw [wpE_bind, wpE_bind, wpE_isRegistered]
  cases w.graph.registry.contains id with
  | true =>
    rw [if_pos rfl, wpE_bind, wpE_resolving]
    refine wpE_mono wpE_trivial (fun v c _ => ?_) fun _ _ _ => trivial
    exact hmembers v _ _ (List.append_nil _).symm
  | false =>
    rw [if_neg Bool.false_ne_true, wpE_bind, wpE_vertex]
    cases a.store.vertex id with
    | error e => trivial
    | ok found =>
      cases found with
      | none => exact Array.toList_push
      | some v =>
        show wpE (World.valueOf? (.vertex v)) _ _ _
        rw [wpE_valueOf?]
        unfold wp
        cases ((Context.valueOf? (.vertex v)).run w.graph).1 with
        | none => exact Array.toList_push
        | some value =>
          exact wpE_mono (hmembers value _ (w.requests.toList ++ [.vertex id]) Array.toList_push)
            (fun _ _ h => h) fun _ _ h => h

namespace Journey

theorem requests_eq (h : Journey f a sink barrier first w due here moves w') :
    w'.requests.toList = w.requests.toList ++ moves.flatMap (Move.requests f.label) := by
  induction h with
  | start => rw [List.flatMap_nil, List.append_nil]
  | @asked _ _ moves u es w₁ w₂ _ _ hrun ih =>
    have hpush : wpE (World.outEdges a u.vertex f.label) (fun _ w' =>
        w'.requests.toList = w₁.requests.toList ++ [.edges u.vertex f.label]) (fun _ _ => True) w₁ := by
      rw [wpE_outEdges]
      cases a.store.outEdges u.vertex f.label with
      | ok => exact Array.toList_push
      | error => trivial
    rw [(wpE_of_run hrun).1 hpush, ih, List.append_assoc, List.flatMap_append]
    rfl
  | looked _ _ hrun ih =>
    rw [(wpE_of_run hrun).1 (wpE_look_requests _), ih, List.append_assoc, List.flatMap_append,
      List.flatMap_singleton]

theorem map_vertex (h : Journey f a sink barrier first w due here moves w') :
    due.map (·.vertex) = first.vertex :: moves.filterMap Move.entered? := by
  induction h with
  | start => rfl
  | asked _ _ _ ih =>
    rw [List.filterMap_append, ih]
    exact congrArg _ (List.append_nil _).symm
  | @looked _ _ u id s _ _ _ _ _ ih =>
    rw [List.map_append, List.filterMap_append, ← List.cons_append, ih]
    cases s <;> rfl

theorem exists_heads (h : Journey f a sink barrier first w due here moves w') :
    ∀ id ∈ moves.filterMap Move.met?, ∃ tail, id ∈ heads a f.label tail := by
  induction h with
  | start => exact fun _ h => absurd h List.not_mem_nil
  | asked _ _ _ ih =>
    rw [List.filterMap_append]
    exact List.forall_mem_append.2 ⟨ih, fun _ h => absurd h List.not_mem_nil⟩
  | looked _ hid _ ih =>
    rw [List.filterMap_append]
    exact List.forall_mem_append.2 ⟨ih, List.forall_mem_singleton.2 ⟨_, hid⟩⟩

end Journey

/-! ### The search -/

/-- The search has come this far, and its marks are those of the start and of what it has looked at. -/
structure Underway (f : Reachability) (a : App) (sink barrier : Column) (first : Waiting) (w₀ : World)
    (al : FlowAliases) (due : List Waiting) (here : Option Waiting) (moves : List Move) (marks : Marks)
    (result : FlowResult) (w : World) : Prop where
  journey : Journey f a sink barrier first w₀ due here moves w
  marks : marks.ids.reverse = first.vertex :: moves.filterMap Move.met?
  result : ∃ xs, result.Lists al xs

theorem wpE_follow_underway {before : Marks} {es : List Edge} {r : Grown before}
    (h : Underway f a sink barrier first w₀ al (due ++ r.1.waiting) (some u) moves r.1.marks r.1.result w)
    (he : ∀ e ∈ es, e.head ∈ heads a f.label u.vertex) :
    wpE (follow a sink barrier start u.trail before es r) (fun r' w' => ∃ moves',
        Underway f a sink barrier first w₀ al (due ++ r'.1.waiting) (some u) moves' r'.1.marks
          r'.1.result w' ∧
        moves'.filterMap Move.asked? = moves.filterMap Move.asked?)
      (fun e w' => a.Refused e w') w := by
  induction es generalizing r moves w with
  | nil => exact ⟨moves, h, rfl⟩
  | cons e es ih =>
    obtain ⟨hhead, hrest⟩ := List.forall_mem_cons.1 he
    cases hid : r.1.marks.add? e.head with
    | none =>
      rw [follow_cons_of_none hid]
      exact ih h hrest
    | some marks =>
      rw [follow_cons_of_some hid, visit_eq, wpE_bind, wpE_bind]
      refine wpE_mono (wpE_and_run (wpE_look w)) (fun s w₁ hs => ?_) fun _ _ he => he
      obtain ⟨xs, hxs⟩ := h.result
      refine wpE_of_never (wpE_report hxs s) fun x w₂ hx => ?_
      obtain ⟨rfl, hnext, hlists⟩ := hx
      have hlooked : Underway f a sink barrier first w₀ al (due ++ (r.met hid x).1.waiting) (some u)
          (moves ++ [.looked e.head (w.graph.registry.contains e.head) s]) (r.met hid x).1.marks
          (r.met hid x).1.result w₂ := by
        refine ⟨?_, ?_, _, hlists⟩
        · show Journey _ _ _ _ _ _ (due ++ (r.1.waiting ++ x.1.toList)) _ _ _
          rw [hnext, ← List.append_assoc]
          exact h.journey.looked hhead hs.1
        · show marks.ids.reverse = _
          rw [(Marks.ids_of_add? hid).2, List.reverse_cons, h.marks, List.filterMap_append]
          rfl
      refine wpE_mono (ih hlooked hrest) (fun r' w' hr => ?_) fun _ _ he => he
      obtain ⟨moves', hu, hasked⟩ := hr
      refine ⟨moves', hu, hasked.trans ?_⟩
      rw [List.filterMap_append]
      exact List.append_nil _

/-- Of what waits, the edges are asked for in the order in which it was met. -/
theorem wpE_rounds_underway
    (h : Underway f a sink barrier first w₀ al (done ++ us) here moves marks result w)
    (hasked : moves.filterMap Move.asked? = (done.filter f.follows).map (·.vertex)) :
    wpE (f.rounds a sink barrier start marks result us) (fun result' w' => ∃ due here' moves' marks',
        Underway f a sink barrier first w₀ al due here' moves' marks' result' w' ∧
        moves'.filterMap Move.asked? = (due.filter f.follows).map (·.vertex))
      (fun e w' => a.Refused e w') w := by
  induction marks, result, us using rounds.induct f generalizing done here moves w with
  | case1 marks result =>
    rw [rounds]
    rw [List.append_nil] at h
    exact ⟨done, here, moves, marks, h, hasked⟩
  | case2 marks result u us hf ih =>
    rw [rounds_cons_of_follows hf, wpE_bind]
    refine wpE_mono (wpE_and_run (wpE_outEdges_heads a f.label u.vertex w)) (fun es w₁ hes => ?_)
      fun _ _ he => he
    obtain ⟨hrun, hheads⟩ := hes
    have hu : Underway f a sink barrier first w₀ al
        (done ++ u :: us ++ (Grown.first marks result).1.waiting) (some u) (moves ++ [.asked u.vertex])
        (Grown.first marks result).1.marks (Grown.first marks result).1.result w₁ := by
      refine ⟨?_, ?_, h.result⟩
      · show Journey _ _ _ _ _ _ (_ ++ []) _ _ _
        rw [List.append_nil]
        exact h.journey.asked (List.mem_append_right _ (List.mem_cons_self ..)) hrun
      · show marks.ids.reverse = _
        rw [h.marks, List.filterMap_append]
        exact congrArg _ (List.append_nil _).symm
    rw [wpE_bind]
    refine wpE_mono (wpE_follow_underway hu fun e he => hheads ▸ List.mem_map_of_mem he)
      (fun r w₂ hr => ?_) fun _ _ he => he
    obtain ⟨moves', hu', hasked'⟩ := hr
    have hnext : Underway f a sink barrier first w₀ al (done ++ [u] ++ (us ++ r.1.waiting)) (some u)
        moves' r.1.marks r.1.result w₂ := by
      rw [List.append_assoc, List.singleton_append, ← List.cons_append, ← List.append_assoc]
      exact hu'
    refine ih r.1 r.2 hnext ?_
    rw [hasked', List.filterMap_append, hasked, List.filter_append, List.map_append,
      List.filter_cons_of_pos hf]
    rfl
  | case3 marks result u us hf ih =>
    rw [rounds_cons_of_not_follows hf]
    have hnext : Underway f a sink barrier first w₀ al (done ++ [u] ++ us) here moves marks result w := by
      rwa [List.append_assoc]
    refine ih hnext ?_
    rw [hasked, List.filter_append, List.filter_cons_of_neg hf, List.filter_nil, List.append_nil]

end Reachability

/-- The edges that the store tells of are those of a graph in memory, or some of them. It may refuse
requests and hide vertices. -/
def App.Veils (a : App) (st : InMemoryStore) : Prop :=
  ∀ id label es, a.store.outEdges id label = .ok es → es ⊆ st.outEdges id label

namespace Reachability
variable {f : Reachability} {a : App} {sink barrier : Column} {start : Value} {s : VertexId}
  {due : List Waiting} {here : Option Waiting} {moves : List Move} {al : FlowAliases}
  {result : FlowResult} {xs : List Finding} {w w' : World} {d : GraphDump} {st : InMemoryStore}

theorem mem_ids_of_heads (hst : st.Holds d) (hv : a.Veils st) {label : Option String}
    {id tail : VertexId} (h : id ∈ heads a label tail) : id ∈ d.vertices.map (·.id) := by
  obtain ⟨es, hes, e, he, rfl⟩ := mem_heads_iff.1 h
  have hmem := hv tail label es hes he
  rw [hst.outEdges_eq] at hmem
  exact List.mem_map.2 (hst.ends (List.mem_filter.1 hmem).1).2

/-- What a search asks for that has had these vertices waiting in this order and has made these moves,
from a vertex of a store with so many vertices. -/
structure Thrifty (f : Reachability) (s : VertexId) (n : Nat) (due : List Waiting) (moves : List Move)
    (log : List Request) : Prop where
  waited : due.map (·.vertex) = s :: moves.filterMap Move.entered?
  /-- The edges of each vertex that has waited and is not too far are asked for, in this order. -/
  edges : log.filterMap Request.edgesOf? = (due.filter f.follows).map fun u => (u.vertex, f.label)
  waitedOnce : (due.map (·.vertex)).Nodup
  /-- A vertex is fetched when it is looked at, if it is not registered then. -/
  vertices : ∀ id, .vertex id ∈ log ↔ ∃ x, .looked id false x ∈ moves
  metOnce : (s :: moves.filterMap Move.met?).Nodup
  pages : ∀ offset count, .page offset count ∉ log
  once : log.Nodup
  few : log.length ≤ 2 * n + 1

theorem Underway.thrifty {first : Waiting} {w₀ : World} {marks : Marks} (hst : st.Holds d)
    (hv : a.Veils st) (h : Underway f a sink barrier first w₀ al due here moves marks result w)
    (hasked : moves.filterMap Move.asked? = (due.filter f.follows).map (·.vertex)) :
    f.Thrifty first.vertex d.vertices.length due moves (moves.flatMap (Move.requests f.label)) := by
  have hmet : (first.vertex :: moves.filterMap Move.met?).Nodup := by
    rw [← h.marks, List.nodup_reverse]
    exact marks.nodup
  have hwaited := h.journey.map_vertex
  -- what has waited is the start and some of what has been looked at
  have hsublist : (due.map (·.vertex)).Sublist (first.vertex :: moves.filterMap Move.met?) :=
    hwaited ▸ (Move.sublist_entered moves).cons_cons _
  have hdue := hmet.sublist hsublist
  have honce : (moves.filterMap Move.asked?).Nodup := by
    rw [hasked]
    exact hdue.sublist (List.filter_sublist.map _)
  have hmetle : (moves.filterMap Move.met?).length ≤ d.vertices.length := by
    -- only ends of edges are looked at, and these are vertices of the graph
    have hsub : moves.filterMap Move.met? ⊆ d.vertices.map (·.id) := by
      intro id hid
      obtain ⟨tail, htail⟩ := h.journey.exists_heads id hid
      exact mem_ids_of_heads hst hv htail
    have hle := (List.subperm_of_subset (List.nodup_cons.1 hmet).2 hsub).length_le
    rwa [List.length_map] at hle
  have haskedle : (moves.filterMap Move.asked?).length ≤ (moves.filterMap Move.met?).length + 1 := by
    have hle := hsublist.length_le
    rw [List.length_map, List.length_cons] at hle
    rw [hasked, List.length_map]
    exact Nat.le_trans (List.length_filter_le ..) hle
  refine ⟨hwaited, ?_, hdue, fun id => ?_, hmet, fun offset count hp => ?_,
    Move.nodup_requests honce (List.nodup_cons.1 hmet).2, ?_⟩
  · rw [Move.filterMap_requests, hasked, List.map_map]
    rfl
  · rw [List.mem_flatMap]
    constructor
    · rintro ⟨m, hm, hr⟩
      obtain ⟨x, rfl⟩ := Move.vertex_mem_requests.1 hr
      exact ⟨x, hm⟩
    · rintro ⟨x, hx⟩
      exact ⟨_, hx, Move.vertex_mem_requests.2 ⟨x, rfl⟩⟩
  · obtain ⟨m, -, hr⟩ := List.mem_flatMap.1 hp
    exact Move.page_not_mem_requests hr
  · have hle := Move.length_requests_le f.label moves
    omega

/-- A search in a graph in memory, from a value that belongs to a vertex, comes to an end unless the store
refuses a request. It asks for nothing twice and has few requests; from a value that belongs to no vertex
it asks for nothing. -/
theorem search_requests (hst : st.Holds d) (hv : a.Veils st) (hr : result.Lists al xs) (start : Value)
    (source sink barrier : Column) (w : World) :
    match w.graph.bindings.vertex? start with
    | none => (f.algorithm a start source sink barrier result).run.run w =
        (.error (.unboundValue start.identifier), w)
    | some s => ∃ outcome w', (f.algorithm a start source sink barrier result).run.run w = (outcome, w') ∧
        match outcome with
        | .error e => a.Refused e w'
        | .ok _ => ∃ due here moves log,
            f.Journey a sink barrier ⟨s, [start]⟩ w due here moves w' ∧
            w'.requests.toList = w.requests.toList ++ log ∧
            f.Thrifty s d.vertices.length due moves log := by
  cases hs : w.graph.bindings.vertex? start with
  | none => exact run_algorithm_of_unbound hs source
  | some s =>
    have hfirst : Underway f a sink barrier ⟨s, [start]⟩ w al ([] ++ [⟨s, [start]⟩]) none [] (.single s)
        result w := ⟨.start, rfl, xs, hr⟩
    obtain ⟨outcome, w', hrun, hpost⟩ := exists_outcome_of_wpE (wpE_rounds_underway hfirst rfl)
    refine ⟨outcome, w', (run_algorithm_of_bound hs source).trans hrun, ?_⟩
    cases outcome with
    | error e => exact hpost
    | ok result' =>
      obtain ⟨due, here, moves, marks, hu, hasked⟩ := hpost
      exact ⟨due, here, moves, _, hu.journey, hu.journey.requests_eq, hu.thrifty hst hv hasked⟩

theorem search_requests_mutualFiles :
    ∃ st w result result' w' due moves log, InMemoryStore.Holds Query.mutualFiles st ∧
      App.Veils ⟨.default, st.toStore⟩ st ∧ FlowResult.Lists ⟨"a", "b", none, "d"⟩ result [] ∧
      w.graph.bindings.vertex? Inclusions.firstFile = some ⟨1⟩ ∧
      (Reachability.algorithm ⟨some "include", none⟩ ⟨.default, st.toStore⟩ Inclusions.firstFile
        Flow.noBarrier (.predicate "b" .any) Flow.noBarrier result).run.run w = (.ok result', w') ∧
      w'.requests.toList = w.requests.toList ++ log ∧
      Thrifty ⟨some "include", none⟩ ⟨1⟩ 2 due moves log := by
  obtain ⟨st, hst⟩ := InMemoryStore.exists_holds (d := Query.mutualFiles) (by decide) (by decide)
  obtain ⟨result, hr⟩ := Inclusions.exists_result
  have hs := Inclusions.vertex?_firstFile ⟨.default, st.toStore⟩
  have hv : App.Veils ⟨.default, st.toStore⟩ st := fun _ _ _ hes =>
    Except.ok.inj hes ▸ List.Subset.refl _
  have hsearch := search_requests (f := ⟨some "include", none⟩) hst hv hr Inclusions.firstFile
    Flow.noBarrier (.predicate "b" .any) Flow.noBarrier (Inclusions.resolved ⟨.default, st.toStore⟩)
  rw [hs] at hsearch
  obtain ⟨outcome, w', hrun, hpost⟩ := hsearch
  cases outcome with
  | error e => exact absurd hpost (Inclusions.serves st).not_refused
  | ok result' =>
    obtain ⟨due, here, moves, log, -, hlog, hthrifty⟩ := hpost
    exact ⟨st, _, result, result', w', due, moves, log, hst, hv, hr, hs, hrun, hlog, hthrifty⟩

end Reachability

end CodeGraph
