import CodeGraph.Proofs.Abreast
import CodeGraph.Proofs.DepthLimit

/-!
# Searches for different sinks

The sink of a search is asked about each vertex that is entered, and the answer decides whether the vertex
is reported but not whether it is followed. If nothing is forgotten, asking makes no difference to what
comes after. So there is one list of meetings for a start, a barrier, a label and a depth limit, and
whatever the sink is, the search finds those of them that the sink accepts (`Reachability.sinks_sift`). The
sink is asked when the vertex is met: later more may be bound, and then it might answer otherwise.
-/

namespace CodeGraph

def Column.accepts (sink : Column) (v : Value) (c : Context) : Bool := ((sink.contains (.value v)).run c).1

def Column.everything (name : String) : Column := .predicate name .any

theorem Column.accepts_everything (name : String) (v : Value) (c : Context) :
    (everything name).accepts v c = true := rfl

theorem Column.accepts_congr {sink : Column} {v : Value} {c c' : Context} (h : c.Abreast True c') :
    sink.accepts v c = sink.accepts v c' :=
  ((Context.looks_steady.contains sink (.value v)).wp₂_abreast (p := (c, c')) h).2

/-- The worlds differ at most in what has been asked of them, and nothing is forgotten in them. -/
def World.Beside (w w' : World) : Prop := w.graph.Abreast True w'.graph

namespace Reachability

/-- A vertex that was entered, as a finding, and the world in which it had just been looked at. -/
structure Meeting where
  finding : Finding
  world : World

/-- What is found of what was met. -/
def sift (sink : Column) (met : List Meeting) : List Finding :=
  (met.filter fun m => sink.accepts m.finding.sink m.world.graph).map (·.finding)

theorem sift_append (sink : Column) (met met' : List Meeting) :
    sift sink (met ++ met') = sift sink met ++ sift sink met' := by
  unfold sift
  rw [List.filter_append, List.map_append]

theorem sift_of_constant {sink : Column} {accepts : Value → Bool} (h : ∀ v c, sink.accepts v c = accepts v)
    (met : List Meeting) :
    sift sink met = (met.map (·.finding)).filter fun x => accepts x.sink := by
  unfold sift
  rw [List.filter_map]
  exact congrArg _ (List.filter_congr fun m _ => h m.finding.sink m.world.graph)

theorem sift_everything (name : String) (met : List Meeting) :
    sift (.everything name) met = met.map (·.finding) := by
  rw [sift_of_constant (Column.accepts_everything name), List.filter_true]

namespace Sight
variable {start : Value} {trail : List Value} {id : VertexId} {sink : Column} {s : Sight} {w : World}

/-- What is seen of the vertex with another sink. -/
def judged (sink : Column) (c : Context) : Sight → Sight
  | entered v _ => entered v (sink.accepts v c)
  | s => s

/-- What is met when the vertex has been visited from the end of a trail. -/
def meetings (start : Value) (trail : List Value) (w : World) : Sight → List Meeting
  | entered v _ => [⟨⟨start, v, (v :: trail).reverse⟩, w⟩]
  | _ => []

theorem next_judged : (s.judged sink w.graph).next id trail = s.next id trail := by
  cases s <;> rfl

theorem findings_judged :
    (s.judged sink w.graph).findings start trail = sift sink (s.meetings start trail w) := by
  cases s with
  | absent | blocked => rfl
  | entered v reached =>
    unfold judged meetings sift
    rw [List.filter_singleton]
    dsimp only
    cases sink.accepts v w.graph <;> rfl

end Sight

variable {a : App} {sink barrier : Column} {start : Value} {trail : List Value} {id : VertexId}
  {name : String} {label : Option String} {al : FlowAliases} {w w' w₀ w₁ : World}

/-! ### Looking -/

theorem wpE₂_sink {p : World × World} (hp : (Context.abreast True).onGraph.Step p p) (v : Value) :
    wpE₂ (Context.abreast True).onGraph (World.member (.everything name) (.value v))
      (World.member sink (.value v))
      (fun yes yes' q => yes = true ∧ yes' = sink.accepts v q.1.graph) p := by
  have hu := Context.looks_onlyUses.contains sink (.value v) p.2.graph
  have hasked : wp₂ (Context.abreast True) ((Column.everything name).contains (.value v))
      (sink.contains (.value v)) (fun yes yes' q => yes = true ∧ yes' = sink.accepts v q.1)
      (p.1.graph, p.2.graph) :=
    ⟨⟨hp.alike.trans hu, Or.inl trivial, hp.room⟩, rfl, (Column.accepts_congr hp).symm⟩
  exact wpE₂_lift (wp₂_onGraph hasked)

theorem wpE₂_look {p : World × World} (hp : (Context.abreast True).onGraph.Step p p) (id : VertexId) :
    wpE₂ (Context.abreast True).onGraph (look a (.everything name) barrier id) (look a sink barrier id)
      (fun s s' q => s.judged (.everything name) q.1.graph = s ∧ s' = s.judged sink q.1.graph) p := by
  unfold look
  refine wpE₂_bind (wpE₂_valueOf_abreast hp id) fun o o' q hq ho => ?_
  subst ho
  -- the barrier is the same in both, so only the answer of the sink may differ
  have hq := (Context.abreast True).onGraph.stay hq
  cases o with
  | none => exact wpE₂_pure hq ⟨rfl, rfl⟩
  | some v =>
    refine wpE₂_bind (wpE₂_lift (wp₂_onGraph
      ((Context.looks_steady.contains barrier (.value v)).wp₂_abreast hq))) fun yes yes' r hr hy => ?_
    obtain rfl : yes = yes' := hy
    have hr := (Context.abreast True).onGraph.stay hr
    cases yes with
    | true => exact wpE₂_pure hr ⟨rfl, rfl⟩
    | false =>
      refine wpE₂_bind (wpE₂_sink hr v) fun yes yes' q hq hy => ?_
      obtain ⟨rfl, rfl⟩ := hy
      exact wpE₂_pure ((Context.abreast True).onGraph.stay hq) ⟨rfl, rfl⟩

/-- One look with the sink that accepts all stands for the looks with all sinks. -/
theorem exists_look (ha : a.Serves) (name : String) (barrier : Column) (id : VertexId)
    (hw : w.Beside w) :
    ∃ s w₁, (look a (.everything name) barrier id).run.run w = (.ok s, w₁) ∧
      w₁.Beside w₁ ∧ s.judged (.everything name) w₁.graph = s ∧
      ∀ sink w', w.Beside w' → wpE (look a sink barrier id)
        (fun s' w₁' => w₁.Beside w₁' ∧ s' = s.judged sink w₁.graph) Never w' := by
  obtain ⟨s, w₁, hrun, -⟩ := exists_of_wpE (ha.wpE_never (wpE_look w))
  have hlooks : ∀ sink w', w.Beside w' → wpE (look a sink barrier id) (fun s' w₁' => w₁.Beside w₁' ∧
      s.judged (.everything name) w₁.graph = s ∧ s' = s.judged sink w₁.graph) Never w' :=
    fun _ w' hb => wpE_of_wpE₂ (wpE₂_look (p := (w, w')) hb id) hrun
  obtain ⟨hbeside, hs, -⟩ := (wpE_of_run hrun).1 (hlooks (.everything name) w hw)
  refine ⟨s, w₁, hrun, hbeside, hs, fun sink w' hb => ?_⟩
  exact wpE_of_never (hlooks sink w' hb) fun _ _ h => ⟨h.1, h.2.2⟩

theorem exists_report {result : FlowResult} {xs : List Finding} (h : result.Lists al xs) (start : Value)
    (trail : List Value) (id : VertexId) (s : Sight) (w : World) :
    ∃ x, (report start trail id result s).run.run w = (.ok x, w) ∧ x.1 = s.next id trail ∧
      x.2.Lists al (xs ++ s.findings start trail) := by
  have hreport : wpE (report start trail id result s) _ Never w := wpE_report h s
  obtain ⟨x, _, hrun, rfl, hnext, hlists⟩ := exists_of_wpE hreport
  exact ⟨x, hrun, hnext, hlists⟩

theorem exists_edges (ha : a.Serves) (label : Option String) (id : VertexId) (hw : w.Beside w) :
    ∃ es w₁, (World.outEdges a id label).run.run w = (.ok es, w₁) ∧ w₁.Beside w₁ ∧
      ∀ w', w.Beside w' →
        wpE (World.outEdges a id label) (fun es' w₁' => w₁.Beside w₁' ∧ es = es') Never w' := by
  obtain ⟨es, w₁, hrun, -⟩ := exists_of_wpE (ha.wpE_never (wpE_outEdges_heads a label id w))
  have hasks : ∀ w', w.Beside w' →
      wpE (World.outEdges a id label) (fun es' w₁' => w₁.Beside w₁' ∧ es = es') Never w' := by
    intro w' hb
    have hp : (Context.abreast True).onGraph.Step (w, w') (w, w') := hb
    exact wpE_of_wpE₂ (wpE₂_request hp (.edges id label) rfl) hrun
  exact ⟨es, w₁, hrun, ((wpE_of_run hrun).1 (hasks w hw)).1, hasks⟩

/-! ### Following -/

/-- In this world a vertex was entered with this finding, on the way of the search from another. -/
def Meeting.On (a : App) (label : Option String) (name : String) (barrier : Column) (w : World)
    (m : Meeting) : Prop :=
  ∃ seen id, Trace a label (.everything name) barrier w (seen ++ [(id, .entered m.finding.sink true)]) m.world

/-- A search that has come this far with the sink that accepts all: nothing is forgotten, and what has
been met can be traced back. -/
structure Meets (a : App) (label : Option String) (name : String) (barrier : Column) (al : FlowAliases)
    (w₀ : World) (result : FlowResult) (w : World) : Prop where
  steady : w.Beside w
  trace : ∃ seen, Trace a label (.everything name) barrier w₀ seen w
  result : ∃ xs, result.Lists al xs

theorem exists_follow (ha : a.Serves) {before : Marks} {es : List Edge} {g : Grown before}
    (h : Meets a label name barrier al w₀ g.1.result w) :
    ∃ g₁ w₁ met, (follow a (.everything name) barrier start trail before es g).run.run w = (.ok g₁, w₁) ∧
      Meets a label name barrier al w₀ g₁.1.result w₁ ∧
      (∀ m ∈ met, m.On a label name barrier w₀) ∧
      ∀ sink (g' : Grown before) w' ys, w.Beside w' → g'.1.marks = g.1.marks →
        g'.1.waiting = g.1.waiting → g'.1.result.Lists al ys →
        wpE (follow a sink barrier start trail before es g') (fun g₁' w₁' => w₁.Beside w₁' ∧
          g₁'.1.marks = g₁.1.marks ∧ g₁'.1.waiting = g₁.1.waiting ∧
          g₁'.1.result.Lists al (ys ++ sift sink met)) Never w' := by
  -- what is met must not depend on the sink, so it is found before any other sink is taken
  induction es generalizing g w with
  | nil =>
    refine ⟨g, w, [], rfl, h, fun _ h => absurd h List.not_mem_nil,
      fun sink g' w' ys hb hm hu hl => ?_⟩
    rw [show sift sink [] = [] from rfl, List.append_nil]
    exact ⟨hb, hm, hu, hl⟩
  | cons e es ih =>
    cases hid : g.1.marks.add? e.head with
    | none =>
      obtain ⟨g₁, w₁, met, hrun, hmeets, hmet, hall⟩ := ih h
      refine ⟨g₁, w₁, met, by rwa [follow_cons_of_none hid], hmeets, hmet,
        fun sink g' w' ys hb hm hu hl => ?_⟩
      rw [follow_cons_of_none (hm ▸ hid)]
      exact hall sink g' w' ys hb hm hu hl
    | some marks =>
      obtain ⟨s, w₁, hrun, hbeside, hs, hlook⟩ := exists_look ha name barrier e.head h.steady
      obtain ⟨xs, hxs⟩ := h.result
      obtain ⟨seen, hseen⟩ := h.trace
      obtain ⟨x, hreport, hnext, hlists⟩ := exists_report hxs start trail e.head s w₁
      obtain ⟨g₂, w₂, met, hrest, hmeets, hmet, hall⟩ :=
        ih (g := g.met hid x) ⟨hbeside, ⟨_, hseen.looked hrun⟩, _, hlists⟩
      refine ⟨g₂, w₂, s.meetings start trail w₁ ++ met, ?_, hmeets,
        List.forall_mem_append.2 ⟨?_, hmet⟩, fun sink g' w' ys hb hm hu hl => ?_⟩
      · rw [follow_cons_of_some hid, visit_eq, bind_assoc]
        exact (run_bind_of_run _ hrun).trans ((run_bind_of_run _ hreport).trans hrest)
      · cases s with
        | absent | blocked => exact fun _ h => absurd h List.not_mem_nil
        | entered v reached =>
          obtain rfl : true = reached := (Sight.entered.inj hs).2
          exact List.forall_mem_singleton.2 ⟨seen, e.head, hseen.looked hrun⟩
      · -- the marks are the same, so the other search looks at the same vertex
        have hid' : g'.1.marks.add? e.head = some marks := hm ▸ hid
        rw [follow_cons_of_some hid', visit_eq, wpE_bind, wpE_bind]
        refine wpE_of_never (hlook sink w' hb) fun s' w₁' hs' => ?_
        obtain ⟨hb₁, rfl⟩ := hs'
        refine wpE_of_never (wpE_report hl _) fun x' w₂' hx' => ?_
        obtain ⟨rfl, hnext', hlists'⟩ := hx'
        rw [Sight.next_judged] at hnext'
        rw [Sight.findings_judged] at hlists'
        have hu' : (g'.met hid' x').1.waiting = (g.met hid x).1.waiting := by
          show g'.1.waiting ++ x'.1.toList = g.1.waiting ++ x.1.toList
          rw [hu, hnext, hnext']
        rw [sift_append, ← List.append_assoc]
        exact hall sink (g'.met hid' x') w₂' _ hb₁ rfl hu' hlists'

/-! ### Going on -/

/-- Rounds with the sink that accepts all stand for the rounds with all sinks. -/
theorem exists_rounds (ha : a.Serves) (f : Reachability) (start : Value) {result : FlowResult}
    (h : Meets a f.label name barrier al w₀ result w) (marks : Marks) (us : List Waiting) :
    ∃ r₁ w₁ met, (f.rounds a (.everything name) barrier start marks result us).run.run w = (.ok r₁, w₁) ∧
      Meets a f.label name barrier al w₀ r₁ w₁ ∧
      (∀ m ∈ met, m.On a f.label name barrier w₀) ∧
      ∀ sink result' w' ys, w.Beside w' → result'.Lists al ys →
        wpE (f.rounds a sink barrier start marks result' us)
          (fun r₁' w₁' => w₁.Beside w₁' ∧ r₁'.Lists al (ys ++ sift sink met)) Never w' := by
  induction marks, result, us using rounds.induct f generalizing w with
  | case1 marks result =>
    refine ⟨result, w, [], by rw [rounds]; rfl, h, fun _ h => absurd h List.not_mem_nil,
      fun sink result' w' ys hb hl => ?_⟩
    rw [rounds, show sift sink [] = [] from rfl, List.append_nil]
    exact ⟨hb, hl⟩
  | case2 marks result u us hf ih =>
    obtain ⟨es, w₁, hedges, hbeside, hask⟩ := exists_edges ha f.label u.vertex h.steady
    obtain ⟨seen, hseen⟩ := h.trace
    have hasked : Meets a f.label name barrier al w₀ (Grown.first marks result).1.result w₁ :=
      ⟨hbeside, ⟨seen, hseen.asked hedges⟩, h.result⟩
    obtain ⟨g, w₂, met₁, hfollow, hmeets, hmet₁, hall₁⟩ := exists_follow ha hasked
    obtain ⟨r₁, w₃, met₂, hrest, hmeets', hmet₂, hall₂⟩ := ih g.1 g.2 hmeets
    refine ⟨r₁, w₃, met₁ ++ met₂, ?_, hmeets', List.forall_mem_append.2 ⟨hmet₁, hmet₂⟩,
      fun sink result' w' ys hb hl => ?_⟩
    · rw [rounds_cons_of_follows hf]
      exact (run_bind_of_run _ hedges).trans ((run_bind_of_run _ hfollow).trans hrest)
    · rw [rounds_cons_of_follows hf, wpE_bind]
      refine wpE_of_never (hask w' hb) fun es' w₁' hes => ?_
      obtain ⟨hb₁, rfl⟩ := hes
      rw [wpE_bind]
      refine wpE_of_never (hall₁ sink (Grown.first marks result') w₁' ys hb₁ rfl rfl hl)
        fun g' w₂' hg => ?_
      obtain ⟨hb₂, hmarks, hwaiting, hl₂⟩ := hg
      rw [hmarks, hwaiting, sift_append, ← List.append_assoc]
      exact hall₂ sink g'.1.result w₂' _ hb₂ hl₂
  | case3 marks result u us hf ih =>
    obtain ⟨r₁, w₁, met, hrun, hmeets, hmet, hall⟩ := ih h
    refine ⟨r₁, w₁, met, by rwa [rounds_cons_of_not_follows hf], hmeets, hmet,
      fun sink result' w' ys hb hl => ?_⟩
    rw [rounds_cons_of_not_follows hf]
    exact hall sink result' w' ys hb hl

/-- On a store that refuses no request, and if nothing is forgotten, what a search meets from a value that
belongs to a vertex does not depend on its sink, and neither does what is known afterwards. Whatever the
sink is, it finds what it meets and the sink accepts, in the order in which it is met. -/
theorem sinks_sift {f : Reachability} {result : FlowResult} {xs : List Finding} (ha : a.Serves)
    (hn : w.graph.registry.capacity = none) (hr : result.Lists al xs) (start : Value)
    (source barrier : Column) (name : String) :
    match w.graph.bindings.vertex? start with
    | none => ∀ sink, (f.algorithm a start source sink barrier result).run.run w =
        (.error (.unboundValue start.identifier), w)
    | some _ => ∃ every w₁ met,
        (f.algorithm a start source (.everything name) barrier result).run.run w = (.ok every, w₁) ∧
        every.Lists al (xs ++ met.map (·.finding)) ∧ (∀ m ∈ met, m.On a f.label name barrier w) ∧
        ∀ sink, ∃ accepted w₂,
          (f.algorithm a start source sink barrier result).run.run w = (.ok accepted, w₂) ∧
          accepted.Lists al (xs ++ sift sink met) ∧ w₁.graph.Alike w₂.graph := by
  cases hs : w.graph.bindings.vertex? start with
  | none => exact fun sink => run_algorithm_of_unbound hs source
  | some s =>
    have hsteady : w.Beside w := ⟨.refl _, Or.inl trivial, fun _ => hn⟩
    have hmeets : Meets a f.label name barrier al w result w := ⟨hsteady, ⟨[], .start⟩, xs, hr⟩
    obtain ⟨every, w₁, met, hrun, -, hmet, hall⟩ :=
      exists_rounds ha f start hmeets (.single s) [⟨s, [start]⟩]
    have hevery := ((wpE_of_run hrun).1 (hall (.everything name) result w xs hsteady hr)).2
    rw [sift_everything] at hevery
    refine ⟨every, w₁, met, (run_algorithm_of_bound hs source).trans hrun, hevery, hmet, fun sink => ?_⟩
    obtain ⟨accepted, w₂, hrun', hbeside, hlists⟩ := exists_of_wpE (hall sink result w xs hsteady hr)
    exact ⟨accepted, w₂, (run_algorithm_of_bound hs source).trans hrun', hlists, hbeside.alike⟩

/-- Two files are met from the first of three in a circle. One of them is the third, and a sink that looks for
this one rejects the other. -/
theorem sinks_sift_circularFiles :
    ∃ st w result every accepted w₁ w₂ met, InMemoryStore.Holds CircularFiles.dump st ∧
      w.graph.bindings.vertex? Inclusions.firstFile = some ⟨1⟩ ∧
      w.graph.registry.capacity = none ∧ FlowResult.Lists ⟨"a", "b", none, "d"⟩ result [] ∧
      (Reachability.algorithm ⟨some "include", none⟩ ⟨.default, st.toStore⟩ Inclusions.firstFile
        Flow.noBarrier (.everything "b") Flow.noBarrier result).run.run w = (.ok every, w₁) ∧
      every.Lists ⟨"a", "b", none, "d"⟩ (met.map (·.finding)) ∧
      met.map (fun m => m.finding.path.map w₁.graph.bindings.vertex?) =
        [[some ⟨1⟩, some ⟨2⟩], [some ⟨1⟩, some ⟨2⟩, some ⟨3⟩]] ∧
      (Reachability.algorithm ⟨some "include", none⟩ ⟨.default, st.toStore⟩ Inclusions.firstFile
        Flow.noBarrier (.predicate "b" (.ofVertex (· == ⟨3⟩))) Flow.noBarrier result).run.run w =
          (.ok accepted, w₂) ∧
      accepted.Lists ⟨"a", "b", none, "d"⟩ (sift (.predicate "b" (.ofVertex (· == ⟨3⟩))) met) ∧
      (sift (.predicate "b" (.ofVertex (· == ⟨3⟩))) met).map
        (fun x => x.path.map w₂.graph.bindings.vertex?) = [[some ⟨1⟩, some ⟨2⟩, some ⟨3⟩]] ∧
      w₁.graph.Alike w₂.graph := by
  obtain ⟨st, hst⟩ := InMemoryStore.exists_holds (d := CircularFiles.dump) (by decide) (by decide)
  obtain ⟨result, hr⟩ := Inclusions.exists_result
  have hs := Inclusions.vertex?_firstFile ⟨.default, st.toStore⟩
  have hn : (Inclusions.resolved ⟨.default, st.toStore⟩).graph.registry.capacity = none := rfl
  obtain ⟨every, w₁, all, hrun₁, hlists₁, hpaths₁⟩ := CircularFiles.exists_found hst .any hr
  obtain ⟨accepted, w₂, third, hrun₂, hlists₂, hpaths₂⟩ :=
    CircularFiles.exists_found hst (.ofVertex (· == ⟨3⟩)) hr
  have hsift := sinks_sift (f := ⟨some "include", none⟩) (Inclusions.serves st) hn hr
    Inclusions.firstFile Flow.noBarrier Flow.noBarrier "b"
  rw [hs] at hsift
  obtain ⟨_, _, met, hevery, hlists, -, hsinks⟩ := hsift
  cases hrun₁.symm.trans hevery
  obtain ⟨_, _, haccepted, hsifted, halike⟩ := hsinks (.predicate "b" (.ofVertex (· == ⟨3⟩)))
  cases hrun₂.symm.trans haccepted
  obtain rfl : met.map (·.finding) = all := hlists₁.unique hlists
  obtain rfl : sift (.predicate "b" (.ofVertex (· == ⟨3⟩))) met = third := hlists₂.unique hsifted
  rw [List.map_map] at hpaths₁
  exact ⟨st, _, result, every, accepted, w₁, w₂, met, hst, hs, hn, hr, hevery, hlists, hpaths₁, haccepted,
    hsifted, hpaths₂, halike⟩

end Reachability

end CodeGraph
