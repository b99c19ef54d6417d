import Mathlib.Data.List.Chain
import Mathlib.Order.Bounds.Basic
import CodeGraph.Proofs.ReachedSinks
import CodeGraph.Proofs.RetracedPaths

/-!
# The paths that a search reports

A trail that a search enters passes no vertex twice, goes along edges of the store, and no walk to its end
is shorter: such a walk within the limit leads where the search has been at no greater depth, and one beyond
the limit is longer than any trail. A finding has the values of such a trail for its path, from the source
value to the sink value, and findings are recorded in the order in which their trails were entered. So the
paths that are retraced and reported are shortest, and none is shorter than one before it
(`Reachability.reports_shortest_paths`).
-/

namespace CodeGraph

namespace Trail
variable {t : Trail} {r : Reading}

def ids (t : Trail) : List VertexId := t.path.tail.map Reading.id

theorem path_extend : (t.extend r).path = t.path ++ [r] := List.reverse_cons

theorem ids_extend : (t.extend r).ids = t.ids ++ [r.id] := by
  have hne : t.path ≠ [] := List.reverse_ne_nil_iff.2 (List.cons_ne_nil _ _)
  rw [ids, path_extend, List.tail_append_of_ne_nil hne, List.map_append]
  rfl

theorem length_ids : t.ids.length = t.depth := by
  rw [ids, List.length_map, List.length_tail, path, List.length_reverse]
  rfl

end Trail

namespace Terrain
variable {g : Terrain} {s : Reading} {t u : Trail} {closed : List Trail} {marks : List VertexId}

namespace Leads

theorem map_path (h : g.Leads s t) : t.path.map Reading.id = s.id :: t.ids := by
  induction h with
  | start => rfl
  | step _ _ _ ih =>
    rw [Trail.path_extend, List.map_append, ih, Trail.ids_extend]
    rfl

theorem getLast?_ids (h : g.Leads s t) : (s.id :: t.ids).getLast? = some t.id := by
  cases h with
  | start => rfl
  | step _ _ _ =>
    rw [Trail.ids_extend, ← List.cons_append, List.getLast?_concat]
    rfl

theorem isChain (h : g.Leads s t) : (s.id :: t.ids).IsChain fun u v => v ∈ g.next u := by
  induction h with
  | start => exact .singleton _
  | @step t r h hn _ ih =>
    rw [Trail.ids_extend, ← List.cons_append]
    refine ih.append (.singleton _) fun x hx y hy => ?_
    rw [h.getLast?_ids] at hx
    cases hx
    cases hy
    exact hn

end Leads

/-- No trail to where the search has been is shorter than the one by which it came. -/
theorem Frontier.depth_le (h : g.Frontier s closed [] marks) (ht : t ∈ closed) (hu : g.Leads s u)
    (hid : u.id = t.id) : t.depth ≤ u.depth := by
  have he := h.explored
  rw [List.append_nil] at he
  by_cases hw : g.Within u
  · obtain ⟨x, hx, hxid, hd⟩ := h.complete hu hw
    obtain rfl := List.inj_on_of_nodup_map he.once hx ht (hxid.trans hid)
    exact hd
  · refine Nat.le_of_not_lt fun hlt => hw fun limit hlimit => ?_
    exact (Nat.le_of_lt hlt).trans ((he.leads t ht).2 limit hlimit)

end Terrain

namespace Reachability

/-- The vertex was resolved to the value and may be entered. -/
def Enters (o : VertexId → Sight) (id : VertexId) (v : Value) : Prop := ∃ reached, o id = .entered v reached

/-- The finding tells of a shortest walk from the start, which goes to these vertices. -/
structure Shortest (f : Reachability) (a : App) (o : VertexId → Sight) (start : Value) (s : VertexId)
    (x : Finding) (ids : List VertexId) : Prop where
  source : x.source = start
  begins : ∃ vs, x.path = start :: vs ∧ List.Forall₂ (Enters o) ids vs
  ends : x.path.getLast? = some x.sink
  long : 2 ≤ x.path.length
  distinct : (s :: ids).Nodup
  joined : (s :: ids).IsChain (a.Joins f.label)
  within : f.Within ids.length
  minimal : ∀ t ∈ ids.getLast?, IsLeast {k | Walk a f.label o s k t} ids.length

variable {f : Reachability} {a : App} {o : VertexId → Sight} {start : Value} {s : VertexId} {x : Finding}
  {vs : List Value} {t : Trail} {ids : List VertexId} {b : Bindings} {seen : List (VertexId × Sight)}

theorem Tracks.exists_enters (h : Tracks o start s vs t) :
    ∃ us, vs.reverse = start :: us ∧ List.Forall₂ (Enters o) t.ids us := by
  induction h with
  | start => exact ⟨[], rfl, .nil⟩
  | @step vs t id v reached _ ho ih =>
    obtain ⟨us, hus, hall⟩ := ih
    refine ⟨us ++ [v], ?_, ?_⟩
    · rw [List.reverse_cons, hus]
      rfl
    · rw [Trail.ids_extend]
      exact List.rel_append hall (.cons ⟨reached, ho⟩ .nil)

namespace Reports

theorem length_path (h : Reports o start s x t) : x.path.length = t.depth + 1 := by
  rw [← List.length_reverse, h.tracks.length_eq]

theorem getLast?_path (h : Reports o start s x t) (ht : 0 < t.depth) : x.path.getLast? = some x.sink := by
  have htracks := h.tracks
  have hsink := h.sink
  rw [← List.head?_reverse]
  generalize x.path.reverse = vs at htracks ⊢
  cases htracks with
  | start => exact absurd ht (Nat.lt_irrefl 0)
  | step _ ho =>
    have heq := ho.symm.trans hsink
    cases heq
    rfl

end Reports

theorem Shortest.map_vertex? (h : Shortest f a o start s x ids) (hs : b.vertex? start = some s)
    (hv : ∀ id v, Enters o id v → b.vertex? v = some id) :
    x.path.map b.vertex? = (s :: ids).map some := by
  obtain ⟨vs, hpath, hall⟩ := h.begins
  rw [hpath, List.map_cons, List.map_cons, hs]
  exact congrArg _ (map_eq_map_of_forall₂ (hall.flip.imp fun v id he => hv id v he))

/-- A search that is over has reported shortest walks. -/
theorem Call.Searching.shortest {c : Call} {closed : List Trail} {marks : Marks} {found : List Finding}
    (h : c.Searching o closed [] marks [] found) :
    List.Forall₂ (Shortest c.flow c.app o c.start c.vertex) found
      ((Call.arrived o closed).map Trail.ids) := by
  have hlayered := h.layered
  rw [List.append_nil] at hlayered
  refine List.forall₂_map_right_iff.2 (forall₂_of_mem h.reports fun x t ht hx => ?_)
  have hclosed : t ∈ closed := List.mem_of_mem_tail (List.mem_of_mem_filter ht)
  obtain ⟨hl, hw, -, hne⟩ := (h.frontier.finds _).sound t ht
  have hpos := hl.depth_pos hne
  have hdistinct : (t.path.map Reading.id).Nodup := by
    rw [Trail.path, List.map_reverse, List.nodup_reverse]
    exact hlayered.nodup_ids h.explored.once hclosed
  exact {
    source := hx.source
    begins := by
      have hbegins := hx.tracks.exists_enters
      rwa [List.reverse_reverse] at hbegins
    ends := hx.getLast?_path hpos
    long := by
      rw [hx.length_path]
      exact Nat.succ_le_succ hpos
    distinct := hl.map_path ▸ hdistinct
    joined := hl.isChain.imp fun _ _ => mem_heads_iff.1
    within := by
      rw [Trail.length_ids]
      exact hw
    minimal := by
      intro u hu
      have hlast := hl.getLast?_ids
      rw [List.getLast?_cons, Option.mem_def.1 hu] at hlast
      obtain rfl : u = t.id := Option.some.inj hlast
      rw [Trail.length_ids]
      refine ⟨walk_of_leads hl, fun k hwalk => ?_⟩
      obtain ⟨t', hl', hid, rfl⟩ := exists_leads_of_walk hwalk
      exact h.frontier.depth_le hclosed hl' hid }

namespace Call
variable {c : Call} {closed : List Trail} {marks : Marks} {found : List Finding} {result : FlowResult}
  {w : World}

theorem Searching.sorted_ways (h : c.Searching o closed [] marks [] found) :
    ((arrived o closed).map Trail.ids).Pairwise fun p q => p.length ≤ q.length := by
  have hsorted := h.layered.sorted
  rw [List.append_nil] at hsorted
  rw [List.pairwise_map]
  refine (hsorted.sublist ?_).imp fun hle => by rwa [Trail.length_ids, Trail.length_ids]
  exact List.filter_sublist.trans (List.tail_sublist closed)

theorem Searching.getLast?_ids (h : c.Searching o closed [] marks [] found) (ht : t ∈ arrived o closed) :
    (c.vertex :: t.ids).getLast? = some t.id :=
  ((h.frontier.finds _).sound t ht).1.getLast?_ids

theorem Searching.pairwise (h : c.Searching o closed [] marks [] found) :
    found.Pairwise fun x y => x.path.length ≤ y.path.length := by
  have hlengths : found.map (fun x => x.path.length) =
      ((arrived o closed).map Trail.ids).map fun ids => ids.length + 1 := by
    rw [List.map_map]
    refine map_eq_map_of_forall₂ (h.reports.imp fun x t hx => ?_)
    rw [hx.length_path, ← Trail.length_ids]
    rfl
  rw [← List.pairwise_map (R := (· ≤ ·)), hlengths, List.pairwise_map]
  exact h.sorted_ways.imp fun hle => Nat.succ_le_succ hle

theorem Known.map_paths (hk : c.Known seen marks result found w) (ho : Agrees o seen)
    (h : ∀ o, Agrees o seen → c.Searching o closed [] marks [] found)
    (hcarried : Carried w.graph.bindings seen) :
    List.Forall₂ (fun x ids => x.path.map w.graph.bindings.vertex? = (c.vertex :: ids).map some) found
      ((arrived o closed).map Trail.ids) := by
  obtain ⟨o₀, ho₀, hknown⟩ := hk.exists_agrees
  rw [hk.arrived_eq ho ho₀ (h o ho)]
  refine (h o₀ ho₀).shortest.imp fun x ids hx => ?_
  refine hx.map_vertex? (hk.trace.extends _ _ c.bound) fun id v he => ?_
  obtain ⟨reached, he⟩ := he
  have hm := (hknown id).resolve_right (by rw [he]; exact Sight.noConfusion)
  exact hcarried _ hm v (by rw [he]; rfl)

end Call

/-! ### Three files in a circle -/

namespace CircularFiles
variable {st : InMemoryStore} {p : ValuePredicate} {f : Reachability} {closed : List Trail} {marks : Marks}
  {found : List Finding}

/-- Each of three files includes the next. -/
def dump : GraphDump :=
  ⟨[.bare ⟨1⟩ fileLabel, .bare ⟨2⟩ fileLabel, .bare ⟨3⟩ fileLabel],
    [.bare ⟨1⟩ "include" ⟨1⟩ ⟨2⟩, .bare ⟨2⟩ "include" ⟨2⟩ ⟨3⟩, .bare ⟨3⟩ "include" ⟨3⟩ ⟨1⟩]⟩

theorem joins_iff {id u : VertexId} (hst : InMemoryStore.Holds dump st) :
    (⟨.default, st.toStore⟩ : App).Joins (some "include") id u ↔
      id = ⟨1⟩ ∧ u = ⟨2⟩ ∨ id = ⟨2⟩ ∧ u = ⟨3⟩ ∨ id = ⟨3⟩ ∧ u = ⟨1⟩ := by
  rw [Inclusions.joins_iff hst]
  simp [dump, Edge.bare, @eq_comm _ id, @eq_comm _ u]

theorem ids_eq (hst : InMemoryStore.Holds dump st) (hf : f.label = some "include")
    (h : Shortest f ⟨.default, st.toStore⟩ o start ⟨1⟩ x ids) : ids = [⟨2⟩] ∨ ids = [⟨2⟩, ⟨3⟩] := by
  have hjoined := h.joined
  have hdistinct := h.distinct
  rw [hf] at hjoined
  cases ids with
  | nil =>
    obtain ⟨vs, hpath, hall⟩ := h.begins
    have hlong := h.long
    rw [hpath, List.length_cons, ← hall.length_eq] at hlong
    exact absurd hlong (by decide)
  | cons t ids =>
    rw [List.isChain_cons_cons, joins_iff hst] at hjoined
    obtain ⟨hfirst, hjoined⟩ := hjoined
    obtain rfl : t = ⟨2⟩ := by simpa using hfirst
    cases ids with
    | nil => exact Or.inl rfl
    | cons u ids =>
      rw [List.isChain_cons_cons, joins_iff hst] at hjoined
      obtain ⟨hsecond, hjoined⟩ := hjoined
      obtain rfl : u = ⟨3⟩ := by simpa using hsecond
      cases ids with
      | nil => exact Or.inr rfl
      | cons r ids =>
        rw [List.isChain_cons_cons, joins_iff hst] at hjoined
        obtain rfl : r = ⟨1⟩ := by simpa using hjoined.1
        simp at hdistinct

def call (st : InMemoryStore) (p : ValuePredicate) : Call :=
  ⟨⟨some "include", none⟩, ⟨.default, st.toStore⟩, .predicate "b" p, Flow.noBarrier, Inclusions.firstFile,
    ⟨1⟩, ⟨"a", "b", none, "d"⟩, [], Inclusions.resolved ⟨.default, st.toStore⟩,
    Inclusions.vertex?_firstFile _⟩

def way (id : VertexId) : List VertexId := if id = ⟨2⟩ then [⟨2⟩] else [⟨2⟩, ⟨3⟩]

def accepted (p : ValuePredicate) : List VertexId :=
  [⟨2⟩, ⟨3⟩].filter fun id => (Inclusions.reading id).satisfies p

/-- The files come to what the predicate says of them. -/
def Told (o : VertexId → Sight) (p : ValuePredicate) : Prop :=
  ∀ id : VertexId, id = ⟨2⟩ ∨ id = ⟨3⟩ → ∃ v, o id = .entered v ((Inclusions.reading id).satisfies p)

theorem of_mem_arrived (hst : InMemoryStore.Holds dump st)
    (h : (call st p).Searching o closed [] marks [] found) (ht : t ∈ Call.arrived o closed) :
    (t.id = ⟨2⟩ ∨ t.id = ⟨3⟩) ∧ t.ids = way t.id := by
  have hids := forall_mem_of_forall₂ h.shortest.flip (fun ids x hx => ids_eq hst rfl hx) t.ids
    (List.mem_map_of_mem ht)
  have hlast := h.getLast?_ids ht
  rcases hids with hids | hids <;> rw [hids] at hlast ⊢ <;> rw [← Option.some.inj hlast]
  · exact ⟨Or.inl rfl, rfl⟩
  · exact ⟨Or.inr rfl, rfl⟩

theorem mem_arrived_iff (hst : InMemoryStore.Holds dump st) (ho : Told o p)
    (h : (call st p).Searching o closed [] marks [] found) {u : VertexId} :
    u ∈ (Call.arrived o closed).map Trail.id ↔ u ∈ accepted p := by
  rw [accepted, List.mem_filter, List.mem_cons, List.mem_singleton]
  constructor
  · intro hu
    obtain ⟨t, ht, rfl⟩ := List.mem_map.1 hu
    have hid := (of_mem_arrived hst h ht).1
    obtain ⟨v, hv⟩ := ho t.id hid
    obtain ⟨-, ⟨v', hv'⟩, -⟩ := h.mem_arrived_iff.1 hu
    exact ⟨hid, (Sight.entered.inj (hv.symm.trans hv')).2⟩
  · rintro ⟨hid, hp⟩
    obtain ⟨v₂, hv₂⟩ := ho ⟨2⟩ (Or.inl rfl)
    have hsecond : Walk ⟨.default, st.toStore⟩ (some "include") o ⟨1⟩ 1 ⟨2⟩ :=
      Walk.start.step ((joins_iff hst).2 (Or.inl ⟨rfl, rfl⟩)) hv₂
    obtain ⟨v, hv⟩ := ho u hid
    rw [hp] at hv
    rw [h.mem_arrived_iff]
    rcases hid with rfl | rfl
    · exact ⟨(by decide : (⟨2⟩ : VertexId) ≠ ⟨1⟩), ⟨v, hv⟩, 1, Nat.one_pos, nofun, hsecond⟩
    · exact ⟨(by decide : (⟨3⟩ : VertexId) ≠ ⟨1⟩), ⟨v, hv⟩, 2, Nat.two_pos, nofun,
        hsecond.step ((joins_iff hst).2 (Or.inr (Or.inl ⟨rfl, rfl⟩))) hv⟩

theorem ways_eq (hst : InMemoryStore.Holds dump st) (ho : Told o p)
    (h : (call st p).Searching o closed [] marks [] found) :
    (Call.arrived o closed).map Trail.ids = (accepted p).map way := by
  have hways : (Call.arrived o closed).map Trail.ids = ((Call.arrived o closed).map Trail.id).map way := by
    rw [List.map_map]
    exact List.map_congr_left fun t ht => (of_mem_arrived hst h ht).2
  have hsorted := h.sorted_ways
  rw [hways, List.pairwise_map] at hsorted
  have hperm : ((Call.arrived o closed).map Trail.id).Perm (accepted p) :=
    (List.perm_ext_iff_of_nodup (h.frontier.finds _).once (List.Nodup.filter _ (by decide))).2
      fun u => mem_arrived_iff hst ho h
  rw [hways]
  refine congrArg (List.map way) (hperm.eq_of_pairwise (fun u v hu hv huv hvu => ?_) hsorted ?_)
  · have hmem : ∀ x ∈ accepted p, x = ⟨2⟩ ∨ x = ⟨3⟩ := fun x hx => by
      simpa using (List.mem_filter.1 hx).1
    rcases hmem u (hperm.subset hu) with rfl | rfl <;> rcases hmem v hv with rfl | rfl
    · rfl
    · exact absurd hvu (by decide)
    · exact absurd huv (by decide)
    · rfl
  · exact List.Pairwise.filter _ (by decide)

/-- The search finds the ways to the files that the predicate accepts, and nothing else. -/
theorem exists_found (hst : InMemoryStore.Holds dump st) (p : ValuePredicate) {result : FlowResult}
    (hr : result.Lists ⟨"a", "b", none, "d"⟩ []) :
    ∃ result' w' found, (Reachability.algorithm ⟨some "include", none⟩ ⟨.default, st.toStore⟩
        Inclusions.firstFile Flow.noBarrier (.predicate "b" p) Flow.noBarrier result).run.run
        (Inclusions.resolved ⟨.default, st.toStore⟩) = (.ok result', w') ∧
      result'.Lists ⟨"a", "b", none, "d"⟩ found ∧
      found.map (fun x => x.path.map w'.graph.bindings.vertex?) =
        (accepted p).map fun id => (⟨1⟩ :: way id).map some := by
  have halgorithm := Call.wpE_algorithm (c := call st p) hr Flow.noBarrier
  obtain ⟨result', w', hrun, seen, closed, marks, found, hk, h⟩ :=
    exists_of_wpE ((Inclusions.serves st).wpE_never halgorithm)
  have hready := Inclusions.ready hst p
  obtain ⟨o, ho, hknown⟩ := exists_agrees (List.nodup_cons.1 hk.nodup).2
    fun id => .entered Inclusions.firstFile ((Inclusions.reading id).satisfies p)
  have htold : Told o p := by
    intro id hid
    rcases hknown id with hm | he
    · refine Inclusions.entered_of_sees hst ?_ ((hready.trace hk.trace).2 _ hm)
      rcases hid with rfl | rfl
      · exact List.mem_cons_of_mem _ (List.mem_cons_self ..)
      · exact List.mem_cons_of_mem _ (List.mem_cons_of_mem _ (List.mem_cons_self ..))
    · exact ⟨_, he⟩
  have hpaths := hk.map_paths ho h (hready.carried hk.trace)
  rw [ways_eq hst htold (h o ho), List.forall₂_map_right_iff] at hpaths
  exact ⟨result', w', found, hrun, hk.result, map_eq_map_of_forall₂ hpaths⟩

end CircularFiles

/-- From a value of a vertex, in any world and with any columns, each finding of a search that retraces
paths tells of a walk from the start along edges of the store that is shortest among those to its end on
which the barrier has nothing, and none has a shorter path than one before it, unless the store refuses a
request. -/
theorem reports_shortest_paths {al : FlowAliases} {before : List Finding} {result : FlowResult}
    {w : World} (hs : w.graph.bindings.vertex? start = some s) (hr : result.Lists al before)
    (source sink barrier : Column) :
    ∃ outcome w', (f.retracing a start source sink barrier result).run.run w = (outcome, w') ∧
      match outcome with
      | .error e => a.Refused e w'
      | .ok result' => ∃ seen found ways, Trace a f.label sink barrier w seen w' ∧
          (s :: seen.map (·.1)).Nodup ∧ result'.Lists al (before ++ found) ∧
          found.Pairwise (fun x y => x.path.length ≤ y.path.length) ∧
          (∀ o, Agrees o seen → List.Forall₂ (Shortest f a o start s) found ways) ∧
          (Carried w'.graph.bindings seen → List.Forall₂
            (fun x ids => x.path.map w'.graph.bindings.vertex? = (s :: ids).map some) found ways) := by
  rw [retracing_eq]
  obtain ⟨outcome, w', hrun, hpost⟩ := exists_outcome_of_wpE
    (Call.wpE_algorithm (c := ⟨f, a, sink, barrier, start, s, al, before, w, hs⟩) hr source)
  refine ⟨outcome, w', hrun, ?_⟩
  cases outcome with
  | error e => exact hpost
  | ok result' =>
    obtain ⟨seen, closed, marks, found, hk, h⟩ := hpost
    obtain ⟨o₀, ho₀, -⟩ := hk.exists_agrees
    refine ⟨seen, found, (Call.arrived o₀ closed).map Trail.ids, hk.trace, hk.nodup, hk.result,
      (h o₀ ho₀).pairwise, fun o ho => ?_, hk.map_paths ho₀ h⟩
    rw [hk.arrived_eq ho₀ ho (h o₀ ho₀)]
    exact (h o ho).shortest

/-- Two rows are found from the first of three files: the one that it includes, and then the one behind. -/
theorem reports_shortest_paths_circularFiles :
    ∃ st w w' result result' found, InMemoryStore.Holds CircularFiles.dump st ∧
      w.graph.bindings.vertex? Inclusions.firstFile = some ⟨1⟩ ∧
      FlowResult.Lists ⟨"a", "b", none, "d"⟩ result [] ∧
      (Reachability.retracing ⟨some "include", none⟩ ⟨.default, st.toStore⟩ Inclusions.firstFile
        Flow.noBarrier (.predicate "b" .any) Flow.noBarrier result).run.run w = (.ok result', w') ∧
      result'.Lists ⟨"a", "b", none, "d"⟩ found ∧
      found.map (fun x => x.path.map w'.graph.bindings.vertex?) =
        [[some ⟨1⟩, some ⟨2⟩], [some ⟨1⟩, some ⟨2⟩, some ⟨3⟩]] ∧
      found.Pairwise (fun x y => x.path.length ≤ y.path.length) ∧
      ∃ o, List.Forall₂ (Shortest ⟨some "include", none⟩ ⟨.default, st.toStore⟩ o Inclusions.firstFile ⟨1⟩)
        found [[⟨2⟩], [⟨2⟩, ⟨3⟩]] := by
  obtain ⟨st, hst⟩ := InMemoryStore.exists_holds (d := CircularFiles.dump) (by decide) (by decide)
  obtain ⟨result, hr⟩ := Inclusions.exists_result
  have hs := Inclusions.vertex?_firstFile ⟨.default, st.toStore⟩
  obtain ⟨listed, w₁, found₁, hrun₁, hlists₁, hpaths₁⟩ := CircularFiles.exists_found hst .any hr
  obtain ⟨outcome, w', hrun, hpost⟩ := reports_shortest_paths (f := ⟨some "include", none⟩)
    (a := ⟨.default, st.toStore⟩) hs hr Flow.noBarrier (.predicate "b" .any) Flow.noBarrier
  rw [retracing_eq] at hrun
  cases hrun₁.symm.trans hrun
  obtain ⟨seen, found, ways, htrace, honce, hlists, hsorted, hall, hpaths⟩ := hpost
  obtain rfl : found₁ = found := hlists.unique hlists₁
  have hcarried := (Inclusions.ready hst .any).carried htrace
  have hways : ways = [[⟨2⟩], [⟨2⟩, ⟨3⟩]] := by
    have hinj : Function.Injective fun ids : List VertexId => ((⟨1⟩ : VertexId) :: ids).map some :=
      fun _ _ h => (List.cons.inj (List.map_injective_iff.2 (Option.some_injective _) h)).2
    refine List.map_injective_iff.2 hinj ?_
    rw [← map_eq_map_of_forall₂ (hpaths hcarried), hpaths₁]
    rfl
  obtain ⟨o, ho, -⟩ := exists_agrees (List.nodup_cons.1 honce).2 fun _ => .absent
  refine ⟨st, _, w₁, result, listed, found₁, hst, hs, hr, by rwa [retracing_eq], hlists₁, hpaths₁, hsorted,
    o, ?_⟩
  rw [← hways]
  exact hall o ho

end Reachability

end CodeGraph
