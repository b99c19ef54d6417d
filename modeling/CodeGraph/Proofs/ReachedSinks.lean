import CodeGraph.Proofs.Reaching
import CodeGraph.Proofs.ReachabilityQuery

/-!
# The sinks that a search reaches

Whatever the vertices may come to that a search has not looked at, it has found, once each, the vertices
other than its start that the sink accepts and that a walk within the limit leads to, along edges of the
store and into vertices that the barrier does not accept (`Reachability.finds_each_sink_once`).
-/

namespace CodeGraph

/-- An edge that the store has under the label leads from the one vertex to the other. -/
def App.Joins (a : App) (label : Option String) (u v : VertexId) : Prop :=
  ∃ es, a.store.outEdges u label = .ok es ∧ ∃ e ∈ es, e.head = v

namespace Reachability

/-- A walk of so many edges under the label, each to a vertex that may be entered. -/
inductive Walk (a : App) (label : Option String) (o : VertexId → Sight) (s : VertexId) :
    Nat → VertexId → Prop where
  | start : Walk a label o s 0 s
  | step {k : Nat} {t u : VertexId} {v : Value} {reached : Bool} : Walk a label o s k t →
    a.Joins label t u → o u = .entered v reached → Walk a label o s (k + 1) u

variable {f : Reachability} {a : App} {o o' : VertexId → Sight} {s id u : VertexId} {t : Trail} {k : Nat}

theorem mem_heads_iff {label : Option String} : u ∈ heads a label id ↔ a.Joins label id u := by
  unfold heads App.Joins
  cases a.store.outEdges id label <;> simp

theorem Sight.reading?_eq_some {x : Sight} {r : Reading} :
    x.reading? id = some r ↔ r = .bare id ∧ ∃ v reached, x = .entered v reached := by
  cases x <;> simp [reading?, eq_comm]

theorem walk_of_leads (h : (f.terrain a o).Leads (.bare s) t) : Walk a f.label o s t.depth t.id := by
  induction h with
  | start => exact .start
  | step _ hn he ih =>
    obtain ⟨-, v, reached, hs⟩ := Sight.reading?_eq_some.1 he
    exact ih.step (mem_heads_iff.1 hn) hs

theorem exists_leads_of_walk (h : Walk a f.label o s k u) :
    ∃ t, (f.terrain a o).Leads (.bare s) t ∧ t.id = u ∧ t.depth = k := by
  induction h with
  | start => exact ⟨_, .start, rfl, rfl⟩
  | @step k t u v reached _ hj hs ih =>
    obtain ⟨t, hl, rfl, rfl⟩ := ih
    exact ⟨t.extend (.bare u), hl.step (mem_heads_iff.2 hj)
      (Sight.reading?_eq_some.2 ⟨rfl, v, reached, hs⟩), rfl, rfl⟩

theorem Sight.reached_eq_true {x : Sight} : x.reached = true ↔ ∃ v, x = .entered v true := by
  cases x <;> simp [reached]

namespace Call
variable {c : Call} {seen : List (VertexId × Sight)} {marks : Marks} {result : FlowResult}
  {found : List Finding} {w : World} {closed : List Trail}

/-- The trails to what is looked for, among those that have been followed. -/
def arrived (o : VertexId → Sight) (closed : List Trail) : List Trail :=
  Terrain.arrivals (fun r => (o r.id).reached) closed

theorem Searching.reports (h : c.Searching o closed [] marks [] found) :
    List.Forall₂ (Reports o c.start c.vertex) found (arrived o closed) := by
  have hfound := h.found
  rwa [List.append_nil] at hfound

theorem Searching.explored (h : c.Searching o closed [] marks [] found) :
    (c.terrain o).Explored (.bare c.vertex) closed marks.ids := by
  have hexplored := h.frontier.explored
  rwa [List.append_nil] at hexplored

theorem Known.mem_seen (hk : c.Known seen marks result found w) (hid : id ∈ marks.ids)
    (hne : id ≠ c.vertex) : ∃ x ∈ seen, x.1 = id := by
  rw [hk.marks, List.mem_append, List.mem_reverse, List.mem_singleton] at hid
  exact List.mem_map.1 (hid.resolve_right hne)

/-- Which trails lead to what is looked for has been seen. -/
theorem Known.arrived_eq (hk : c.Known seen marks result found w) (ho : Agrees o seen)
    (ho' : Agrees o' seen) (h : c.Searching o closed [] marks [] found) :
    arrived o closed = arrived o' closed := by
  have he := h.explored
  obtain ⟨rest, hrest⟩ := he.first
  have honce := he.once
  rw [hrest, List.map_cons, List.nodup_cons] at honce
  unfold arrived Terrain.arrivals
  refine List.filter_congr fun t ht => ?_
  rw [hrest, List.tail_cons] at ht
  have hmark : t.id ∈ marks.ids := he.marked t (hrest ▸ List.mem_cons_of_mem _ ht)
  obtain ⟨x, hx, hid⟩ := hk.mem_seen hmark fun heq =>
    honce.1 (List.mem_map.2 ⟨t, ht, heq⟩)
  show (o t.id).reached = (o' t.id).reached
  rw [← hid, ho x hx, ho' x hx]

/-- A search that is over has arrived where the sink accepts a vertex that a walk leads to. -/
theorem Searching.mem_arrived_iff (h : c.Searching o closed [] marks [] found) :
    u ∈ (arrived o closed).map Trail.id ↔ u ≠ c.vertex ∧ (∃ v, o u = .entered v true) ∧
      ∃ k, 0 < k ∧ c.flow.Within k ∧ Walk c.app c.flow.label o c.vertex k u := by
  have hfinds := h.frontier.finds fun r => (o r.id).reached
  constructor
  · intro hu
    obtain ⟨t, ht, rfl⟩ := List.mem_map.1 hu
    obtain ⟨hl, hw, hreached, hne⟩ := hfinds.sound t ht
    exact ⟨hne, Sight.reached_eq_true.1 hreached, t.depth, hl.depth_pos hne, hw, walk_of_leads hl⟩
  · rintro ⟨hne, hsink, k, -, hw, hwalk⟩
    obtain ⟨t, hl, rfl, rfl⟩ := exists_leads_of_walk hwalk
    obtain ⟨x, hx, hlast⟩ := hfinds.complete t hl hw (Sight.reached_eq_true.2 hsink) hne
    exact List.mem_map.2 ⟨x, hx, congrArg Reading.id hlast⟩

end Call

/-- From a value of a vertex, in any world and with any columns, a search adds to the findings before one
for each vertex, other than its start, that the sink accepts and that a walk within the limit leads to,
unless the store refuses a request. No vertex is looked at twice, and the start not at all. -/
theorem finds_each_sink_once {start : Value} {al : FlowAliases} {before : List Finding}
    {result : FlowResult} {w : World} (hs : w.graph.bindings.vertex? start = some s)
    (hr : result.Lists al before) (source sink barrier : Column) :
    ∃ outcome w', (f.algorithm a start source sink barrier result).run.run w = (outcome, w') ∧
      match outcome with
      | .error e => a.Refused e w'
      | .ok result' => ∃ seen found ts, Trace a f.label sink barrier w seen w' ∧
          (s :: seen.map (·.1)).Nodup ∧ result'.Lists al (before ++ found) ∧ ts.Nodup ∧
          (∀ o, Agrees o seen →
            List.Forall₂ (fun x t => x.source = start ∧ o t = .entered x.sink true) found ts ∧
            ∀ t, t ∈ ts ↔ t ≠ s ∧ (∃ v, o t = .entered v true) ∧
              ∃ k, 0 < k ∧ f.Within k ∧ Walk a f.label o s k t) ∧
          (Carried w'.graph.bindings seen →
            found.map (fun x => w'.graph.bindings.vertex? x.sink) = ts.map some) := by
  obtain ⟨outcome, w', hrun, hpost⟩ := exists_outcome_of_wpE
    (Call.wpE_algorithm (c := ⟨f, a, sink, barrier, start, s, al, before, w, hs⟩) hr source)
  refine ⟨outcome, w', hrun, ?_⟩
  cases outcome with
  | error e => exact hpost
  | ok result' =>
    obtain ⟨seen, closed, marks, found, hk, h⟩ := hpost
    obtain ⟨o₀, ho₀, hknown⟩ := hk.exists_agrees
    have hreports : ∀ o, Agrees o seen → List.Forall₂ (fun x t => x.source = start ∧
        o t = .entered x.sink true) found ((Call.arrived o₀ closed).map Trail.id) := by
      intro o ho
      rw [hk.arrived_eq ho₀ ho (h o₀ ho₀)]
      exact List.forall₂_map_right_iff.2 ((h o ho).reports.imp fun x t hx => ⟨hx.source, hx.sink⟩)
    refine ⟨seen, found, (Call.arrived o₀ closed).map Trail.id, hk.trace, hk.nodup, hk.result, ?_, ?_, ?_⟩
    · exact ((h o₀ ho₀).frontier.finds _).once
    · refine fun o ho => ⟨hreports o ho, fun t => ?_⟩
      rw [hk.arrived_eq ho₀ ho (h o₀ ho₀)]
      exact (h o ho).mem_arrived_iff
    · intro hcarried
      refine map_eq_map_of_forall₂ ((hreports o₀ ho₀).imp fun x t hx => ?_)
      have hm := (hknown t).resolve_right (by rw [hx.2]; exact Sight.noConfusion)
      exact hcarried _ hm x.sink (by rw [hx.2]; rfl)

/-! ### Files that include each other -/

namespace Inclusions
variable {d : GraphDump} {st : InMemoryStore} {p : ValuePredicate} {label : Option String}

def firstFile : Value := .node (.built 0) (.stub fileLabel) []

/-- The first file has been resolved, and nothing is registered. -/
def resolved (a : App) : World :=
  { World.new a ⟨"plain", [], []⟩ with
    graph := { Context.new ⟨"plain", [], []⟩ none with
      bindings := Bindings.bind ⟨1, ∅⟩ ⟨1⟩ (.built 0) } }

theorem vertex?_firstFile (a : App) : (resolved a).graph.bindings.vertex? firstFile = some ⟨1⟩ := by
  show (Bindings.bind _ _ _).vertexOf[Ref.built 0]? = _
  rw [Bindings.getElem?_bind, if_pos rfl, Std.HashMap.getElem?_empty]
  rfl

def search (hst : InMemoryStore.Holds d st) (p : ValuePredicate) : Search where
  app := ⟨.default, st.toStore⟩
  flow := ⟨some "include", none⟩
  catalog := .ofListing d.vertices
  language := ⟨"plain", [], []⟩
  next id := (st.outEdges id (some "include")).map (·.head)
  sink := .predicate "b" p
  barrier := Flow.noBarrier
  accepts := (·.satisfies p)
  blocks := (·.satisfies .none)
  aliases := ⟨"a", "b", none, "d"⟩
  vertex_eq id := congrArg Except.ok (hst.vertex?_eq id)
  outEdges_eq id := ⟨_, rfl, rfl⟩
  sink_tells := Column.tells_predicate _ _
  barrier_tells := Column.tells_predicate _ _
  names := by decide

theorem ready (hst : InMemoryStore.Holds d st) (p : ValuePredicate) :
    (search hst p).Ready (resolved ⟨.default, st.toStore⟩) where
  faithful := by
    refine Context.faithful_of_nil (fun _ h => absurd h List.not_mem_nil) (fun n hn => ?_) nofun rfl
    show (Bindings.bind _ _ _).vertexOf[Ref.built n]? = none
    have hne : Ref.built 0 ≠ Ref.built n := fun h => by
      cases h
      exact absurd hn (Nat.not_succ_le_zero 0)
    rw [Bindings.getElem?_bind, if_neg hne, Std.HashMap.getElem?_empty]
  language := rfl

theorem exists_result : ∃ result, FlowResult.Lists ⟨"a", "b", none, "d"⟩ result [] := by
  obtain ⟨result, hnew, -⟩ := FlowResult.exists_new ⟨0, ∅⟩
    (show (FlowAliases.names ⟨"a", "b", none, "d"⟩).Nodup by decide)
  exact ⟨result, FlowResult.lists_of_new hnew⟩

theorem serves (st : InMemoryStore) : (⟨.default, st.toStore⟩ : App).Serves where
  vertex _ := ⟨_, rfl⟩
  outEdges _ _ := ⟨_, rfl⟩

/-- What a file stands for. -/
def reading (id : VertexId) : Reading :=
  ⟨.file (.bare id fileLabel) "", .node (.vertex id) (.stub fileLabel) []⟩

theorem entered_of_sees (hst : InMemoryStore.Holds d st) (hid : .bare id fileLabel ∈ d.vertices)
    {b : Bindings} {x : Sight} (h : (search hst p).Sees b id x) :
    ∃ v, x = .entered v ((reading id).satisfies p) := by
  have hfind : (Catalog.ofListing d.vertices).find id = some (.bare id fileLabel) :=
    Catalog.find_ofListing (v := .bare id fileLabel) hst.nodup_ids hid
  have hread : (search hst p).catalog.read (search hst p).language id = some (reading id) :=
    Catalog.read_of_find hfind
  unfold Search.Sees at h
  rw [hread] at h
  obtain ⟨v, -, rfl⟩ := h
  exact ⟨v, rfl⟩

theorem joins_iff (hst : InMemoryStore.Holds d st) :
    (⟨.default, st.toStore⟩ : App).Joins label id u ↔
      ∃ e ∈ d.edges, e.tail = id ∧ label.all (e.label == ·) ∧ e.head = u := by
  have hedges : st.toStore.outEdges id label =
      .ok (d.edges.filter fun e => e.tail == id && label.all (e.label == ·)) := by
    rw [← hst.outEdges_eq]
    rfl
  unfold App.Joins
  simp only [hedges, Except.ok.injEq, exists_eq_left', List.mem_filter, Bool.and_eq_true, beq_iff_eq,
    and_assoc]

end Inclusions

namespace MutualFiles
variable {st : InMemoryStore}

theorem joins_iff (hst : InMemoryStore.Holds Query.mutualFiles st) :
    (⟨.default, st.toStore⟩ : App).Joins (some "include") id u ↔
      id = ⟨1⟩ ∧ u = ⟨2⟩ ∨ id = ⟨2⟩ ∧ u = ⟨1⟩ := by
  rw [Inclusions.joins_iff hst]
  simp [Query.mutualFiles, Edge.bare, @eq_comm _ id, @eq_comm _ u]

theorem eq_of_walk (hst : InMemoryStore.Holds Query.mutualFiles st)
    (h : Walk ⟨.default, st.toStore⟩ (some "include") o ⟨1⟩ k u) : u = ⟨1⟩ ∨ u = ⟨2⟩ := by
  cases h with
  | start => exact Or.inl rfl
  | step _ hj _ => exact ((joins_iff hst).1 hj).symm.imp And.right And.right

end MutualFiles

theorem finds_each_sink_once_mutualFiles :
    ∃ st w w' result result' x, InMemoryStore.Holds Query.mutualFiles st ∧
      w.graph.bindings.vertex? Inclusions.firstFile = some ⟨1⟩ ∧
      FlowResult.Lists ⟨"a", "b", none, "d"⟩ result [] ∧
      (Reachability.algorithm ⟨some "include", none⟩ ⟨.default, st.toStore⟩ Inclusions.firstFile
        Flow.noBarrier (.predicate "b" .any) Flow.noBarrier result).run.run w = (.ok result', w') ∧
      result'.Lists ⟨"a", "b", none, "d"⟩ [x] ∧ w'.graph.bindings.vertex? x.sink = some ⟨2⟩ := by
  obtain ⟨st, hst⟩ := InMemoryStore.exists_holds (d := Query.mutualFiles) (by decide) (by decide)
  obtain ⟨result, hr⟩ := Inclusions.exists_result
  have hs := Inclusions.vertex?_firstFile ⟨.default, st.toStore⟩
  obtain ⟨outcome, w', hrun, hpost⟩ := finds_each_sink_once (f := ⟨some "include", none⟩)
    (a := ⟨.default, st.toStore⟩) hs hr Flow.noBarrier (.predicate "b" .any) Flow.noBarrier
  cases outcome with
  | error e => exact absurd hpost (Inclusions.serves st).not_refused
  | ok result' =>
    obtain ⟨seen, found, ts, htrace, honce, hlists, hnodup, hall, hvertices⟩ := hpost
    have hready := Inclusions.ready hst .any
    obtain ⟨o, ho, hknown⟩ := exists_agrees (List.nodup_cons.1 honce).2
      fun _ => .entered Inclusions.firstFile true
    have hsecond : ∃ v, o ⟨2⟩ = .entered v true := by
      rcases hknown ⟨2⟩ with hm | he
      · exact Inclusions.entered_of_sees hst (by simp [Query.mutualFiles]) ((hready.trace htrace).2 _ hm)
      · exact ⟨_, he⟩
    have hts : ts = [⟨2⟩] := by
      refine List.perm_singleton.1 ((List.perm_ext_iff_of_nodup hnodup (List.nodup_singleton _)).2
        fun t => ?_)
      rw [(hall o ho).2 t, List.mem_singleton]
      constructor
      · rintro ⟨hne, -, k, -, -, hwalk⟩
        exact (MutualFiles.eq_of_walk hst hwalk).resolve_left hne
      · rintro rfl
        obtain ⟨v, hv⟩ := hsecond
        exact ⟨by decide, ⟨v, hv⟩, 1, Nat.one_pos, nofun,
          Walk.start.step ((MutualFiles.joins_iff hst).2 (Or.inl ⟨rfl, rfl⟩)) hv⟩
    subst hts
    have hsinks := hvertices (hready.carried htrace)
    obtain ⟨x, rfl⟩ := List.length_eq_one_iff.1 (by simpa using congrArg List.length hsinks)
    exact ⟨st, _, w', result, result', x, hst, hs, hr, hrun, hlists, List.head_eq_of_cons_eq hsinks⟩

end Reachability

end CodeGraph
