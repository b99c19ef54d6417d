import CodeGraph.Proofs.Findings
import CodeGraph.Proofs.Sights
import CodeGraph.Proofs.Store

/-!
# The rounds of a search

A `Search` is what the rounds of a reachability flow run with: a store that knows its vertices and
edges, and columns that tell which vertices count as sinks and barriers. Looking up the value of a
vertex, visiting it, following the edges of a vertex and going on until nothing waits are each shown
to do to the trails, the marks and the findings what the search of the terrain does, whatever the
registry has kept. So from a start the rounds find what there is to find (`Search.wpE_algorithm`).
-/

namespace CodeGraph

/-! ### Columns that tell of vertices -/

theorem Catalog.read_eq_some {k : Catalog} {l : Language} {id : VertexId} {r : Reading}
    (h : k.read l id = some r) : r.id = id ∧ r.Owned := by
  obtain ⟨v, hv, hr⟩ := Option.bind_eq_some_iff.1 h
  exact ⟨(Reading.id_of_read hr).trans (k.id_of_find id v hv), Reading.owned_of_read hr⟩

namespace Column
variable {k : Catalog} {l : Language} {accepts : Reading → Bool}

/-- Whether the value of a registered vertex belongs to the column depends on what the vertex stands
for. -/
def Tells (k : Catalog) (l : Language) (col : Column) (accepts : Reading → Bool) : Prop :=
  ∀ (c : Context) (id : VertexId) (r : Registration), c.Faithful k → c.language = l →
    c.registry.peek? id = some r → wp (col.contains (.value r.value)) (fun yes c' =>
      yes = accepts ⟨r.node, c.bindings.view r.value⟩ ∧ c.Alike c') c

theorem tells_predicate (n : String) (p : ValuePredicate) :
    (Column.predicate n p).Tells k l (·.satisfies p) := by
  intro c id r hc _ hr
  refine p.wp_test (hc.owns hr) ?_
  unfold Context.nodeAt?
  rw [hr]
  rfl

theorem tells_data {listing : List Vertex} (hids : (listing.map (·.id)).Nodup) {d : DataColumn}
    {b : Bindings} {p : ValuePredicate}
    (hd : d.Lists b ((listing.filterMap l.read).filter (·.satisfies p))) :
    (Column.data d).Tells (.ofListing listing) l (·.satisfies p) := by
  intro c id r hc hl hr
  refine ⟨?_, .refl c⟩
  have hread := hc.read hr
  rw [hl] at hread
  have hiff := hd.contains_iff (hc.owns hr).vertex?
  show d.contains c.bindings (.value r.value) = _
  rw [Bool.eq_iff_iff, hiff]
  constructor
  · rintro ⟨x, hx, hid⟩
    obtain ⟨hx, hsat⟩ := List.mem_filter.1 hx
    obtain ⟨v, hv, hvx⟩ := List.mem_filterMap.1 hx
    rw [Catalog.read, ← hid, Reading.id_of_read hvx, Catalog.find_ofListing hids hv] at hread
    rw [← Option.some.inj (hvx.symm.trans hread)]
    exact hsat
  · intro hsat
    obtain ⟨v, hv, hvr⟩ := Option.bind_eq_some_iff.1 hread
    exact ⟨_, List.mem_filter.2 ⟨List.mem_filterMap.2 ⟨v, List.mem_of_find?_eq_some hv, hvr⟩, hsat⟩,
      (Catalog.read_eq_some hread).1⟩

end Column

theorem Reachability.wpE_valueOf {k : Catalog} {a : App} {w : World} (h : w.graph.Faithful k)
    (ha : ∀ id, a.store.vertex id = .ok (k.find id)) (id : VertexId) :
    wpE (valueOf a id) (fun found w' => w.graph.Grows w'.graph ∧ w'.graph.Faithful k ∧
      match k.read w.graph.language id with
      | none => found = none
      | some _ => ∃ r, found = some r.value ∧ w'.graph.registry.peek? id = some r) Never w := by
  unfold valueOf
  rw [wpE_bind, wpE_isRegistered]
  unfold Registry.contains
  cases hp : w.graph.registry.peek? id with
  | some r =>
    rw [Option.isSome_some, if_pos rfl, wpE_bind, wpE_resolving, h.read hp]
    refine wpE_of_never (Context.wpE_valueOf_id hp) fun v c' hv => ?_
    obtain ⟨rfl, ha⟩ := hv
    exact ⟨ha.grows, h.alike ha, r, rfl, (ha.peek? id).trans hp⟩
  | none =>
    rw [Option.isSome_none, if_neg Bool.false_ne_true, wpE_bind, wpE_vertex, ha]
    cases hfind : k.find id with
    | none =>
      rw [show k.read w.graph.language id = none by rw [Catalog.read, hfind]; rfl]
      exact ⟨.refl _, h, rfl⟩
    | some v =>
      have hid : v.id = id := k.id_of_find id v hfind
      subst hid
      show wpE (World.valueOf? (.vertex v)) _ _ _
      rw [wpE_valueOf?]
      exact Context.wp_valueOf?_vertex h hfind

/-! ### The setting -/

/-- What the rounds of a search run with. -/
structure Search where
  app : App
  flow : Reachability
  catalog : Catalog
  language : Language
  next : VertexId → List VertexId
  sink : Column
  barrier : Column
  accepts : Reading → Bool
  blocks : Reading → Bool
  aliases : FlowAliases
  vertex_eq : ∀ id, app.store.vertex id = .ok (catalog.find id)
  outEdges_eq : ∀ id, ∃ es, app.store.outEdges id flow.label = .ok es ∧ es.map (·.head) = next id
  sink_tells : sink.Tells catalog language accepts
  barrier_tells : barrier.Tells catalog language blocks
  names : aliases.names.Nodup

namespace Search
variable {x : Search} {w w' : World} {id : VertexId}

/-- The graph as the search sees it: a vertex may be entered if it stands for something that is not
blocked. -/
def terrain (x : Search) : Terrain where
  next := x.next
  enter id := (x.catalog.read x.language id).filter fun r => !x.blocks r
  id_of_enter _ _ h := (Catalog.read_eq_some (Option.filter_eq_some_iff.1 h).1).1
  maxDepth := x.flow.maxDepth

/-- The context holds what the vertices stand for. -/
structure Ready (x : Search) (w : World) : Prop where
  faithful : w.graph.Faithful x.catalog
  language : w.graph.language = x.language

/-- A step of the search: it may register vertices. -/
structure Moves (x : Search) (w w' : World) : Prop where
  grows : w.graph.Grows w'.graph
  ready : x.Ready w'

theorem Moves.trans {w'' : World} (h : x.Moves w w') (h' : x.Moves w' w'') : x.Moves w w'' :=
  ⟨h.grows.trans h'.grows, h'.ready⟩

theorem Ready.refl (h : x.Ready w) : x.Moves w w := ⟨.refl _, h⟩

theorem Ready.moves (h : x.Ready w) (hg : w.graph.Grows w'.graph)
    (hf : w'.graph.Faithful x.catalog) : x.Moves w w' :=
  ⟨hg, hf, hg.language.trans h.language⟩

theorem Ready.alike (h : x.Ready w) (ha : w.graph.Alike w'.graph) : x.Moves w w' :=
  h.moves ha.grows (h.faithful.alike ha)

theorem Ready.wpE_valueOf (h : x.Ready w) (id : VertexId) :
    wpE (Reachability.valueOf x.app id) (fun found w' => x.Moves w w' ∧
      match x.catalog.read x.language id with
      | none => found = none
      | some _ => ∃ r, found = some r.value ∧ w'.graph.registry.peek? id = some r) Never w := by
  refine wpE_of_never (Reachability.wpE_valueOf h.faithful x.vertex_eq id) fun found w' hv => ?_
  obtain ⟨hg, hf, hfound⟩ := hv
  rw [h.language] at hfound
  exact ⟨h.moves hg hf, hfound⟩

/-- The sight of a vertex, if it stands for something: a value that is seen as this, and what the columns
say of it. -/
def Sees (x : Search) (b : Bindings) (id : VertexId) (s : Reachability.Sight) : Prop :=
  match x.catalog.read x.language id with
  | none => s = .absent
  | some r => ∃ v, b.view v = r.value ∧ s = if x.blocks r then .blocked v else .entered v (x.accepts r)

/-- What is seen of a vertex depends on what it stands for. -/
theorem Ready.wpE_look (h : x.Ready w) (id : VertexId) :
    wpE (Reachability.look x.app x.sink x.barrier id)
      (fun s w' => x.Moves w w' ∧ x.Sees w'.graph.bindings id s) Never w := by
  unfold Reachability.look Sees
  rw [wpE_bind]
  refine wpE_of_never (h.wpE_valueOf id) fun found w₁ hv => ?_
  obtain ⟨hm, hfound⟩ := hv
  cases hread : x.catalog.read x.language id with
  | none =>
    rw [hread] at hfound
    subst hfound
    exact ⟨hm, rfl⟩
  | some r =>
    rw [hread] at hfound
    obtain ⟨kept, rfl, hkept⟩ := hfound
    have hsame : ⟨kept.node, w₁.graph.bindings.view kept.value⟩ = r := by
      have := hm.ready.faithful.read hkept
      rw [hm.ready.language, hread] at this
      exact (Option.some.inj this).symm
    have hview : w₁.graph.bindings.view kept.value = r.value := congrArg Reading.value hsame
    show wpE (World.member x.barrier (.value kept.value) >>= _) _ _ w₁
    rw [wpE_bind, wpE_member]
    refine wp_mono (x.barrier_tells _ id kept hm.ready.faithful hm.ready.language hkept)
      fun blocked c₂ hb => ?_
    obtain ⟨rfl, ha⟩ := hb
    rw [hsame]
    have hm₂ : x.Moves w { w₁ with graph := c₂ } := hm.trans (hm.ready.alike ha)
    have hview₂ : c₂.bindings.view kept.value = r.value := by rw [ha.bindings, hview]
    cases hblocks : x.blocks r with
    | true => exact ⟨hm₂, kept.value, hview₂, by rw [hblocks]; rfl⟩
    | false =>
      show wpE (World.member x.sink (.value kept.value) >>= _) _ _ _
      rw [wpE_bind, wpE_member]
      refine wp_mono (x.sink_tells _ id kept hm₂.ready.faithful hm₂.ready.language
        ((ha.peek? id).trans hkept)) fun reached c₃ hs => ?_
      obtain ⟨rfl, ha₃⟩ := hs
      rw [ha.bindings, hsame]
      have hm₃ : x.Moves w { w₁ with graph := c₃ } := hm₂.trans (hm₂.ready.alike ha₃)
      have hview₃ : c₃.bindings.view kept.value = r.value := by rw [ha₃.bindings, hview₂]
      exact ⟨hm₃, kept.value, hview₃, by rw [hblocks]; rfl⟩

/-! ### Trails that wait -/

/-- The values are those of the trail, latest first. -/
structure Passed (b : Bindings) (vs : List Value) (t : Trail) : Prop where
  values : vs.map b.view = (t.last :: t.past).map (·.value)
  owned : t.Owned

structure Waits (b : Bindings) (u : Reachability.Waiting) (t : Trail) : Prop where
  vertex : u.vertex = t.id
  passed : Passed b u.trail t

namespace Passed
variable {b b' : Bindings} {vs : List Value} {v : Value} {t : Trail} {r : Reading}

theorem mono (h : Passed b vs t) (he : b.Extends b') : Passed b' vs t := by
  refine ⟨?_, h.owned⟩
  rw [← h.values]
  refine List.map_congr_left fun v hv => he.view_eq ?_
  have hm : b.view v ∈ (t.last :: t.past).map (·.value) := by
    rw [← h.values]
    exact List.mem_map_of_mem hv
  obtain ⟨r, hr, heq⟩ := List.mem_map.1 hm
  rw [← heq]
  exact (h.owned r hr).bound

theorem extend (h : Passed b vs t) (hv : b.view v = r.value) (hr : r.Owned) :
    Passed b (v :: vs) (t.extend r) := by
  refine ⟨?_, h.owned.extend hr⟩
  rw [List.map_cons, h.values, hv]
  rfl

theorem path_eq (h : Passed b vs t) : vs.reverse.map b.view = t.path.map (·.value) := by
  unfold Trail.path
  rw [List.map_reverse, h.values, ← List.map_reverse]

end Passed

namespace Waits
variable {b b' : Bindings} {u : Reachability.Waiting} {t : Trail}

theorem mono (h : Waits b u t) (he : b.Extends b') : Waits b' u t := ⟨h.vertex, h.passed.mono he⟩

theorem depth_eq (h : Waits b u t) : u.depth = t.depth := by
  have hlen := congrArg List.length h.passed.values
  rw [List.length_map, List.length_map, List.length_cons] at hlen
  unfold Reachability.Waiting.depth
  rw [hlen]
  rfl

end Waits

/-! ### One vertex -/

variable {start v : Value} {s : Reading} {t : Trail} {vs : List Value} {result : FlowResult}
  {xs : List (Reading × Trail)}

/-- The search starts at this value of what a vertex stands for. -/
structure Starts (x : Search) (start : Value) (s : Reading) (w : World) : Prop where
  ready : x.Ready w
  view : w.graph.bindings.view start = s.value
  owned : s.Owned

theorem Starts.moves (h : x.Starts start s w) (hm : x.Moves w w') : x.Starts start s w' := by
  refine ⟨hm.ready, ?_, h.owned⟩
  rw [hm.grows.bindings.view_eq (by rw [h.view]; exact h.owned.bound)]
  exact h.view

theorem Starts.wpE_report (h : x.Starts start s w) (ht : Passed w.graph.bindings (v :: vs) t)
    (hr : result.Shows w.graph.bindings x.aliases xs) (reached : Bool) :
    wpE (do
        let result ←
          if reached then result.emit ⟨start, v, (v :: vs).reverse⟩ else pure result
        return (some (⟨t.id, v :: vs⟩ : Reachability.Waiting), result))
      (fun found w' => w' = w ∧ ∃ u, found.1 = some u ∧ Waits w.graph.bindings u t ∧
        found.2.Shows w.graph.bindings x.aliases (xs ++ if reached then [(s, t)] else [])) Never w := by
  cases reached with
  | false =>
    refine ⟨rfl, _, rfl, ⟨rfl, ht⟩, ?_⟩
    rw [if_neg Bool.false_ne_true, List.append_nil]
    exact hr
  | true =>
    have hv : w.graph.bindings.view v = t.last.value := (List.cons_eq_cons.1 ht.values).1
    rw [if_pos rfl, wpE_bind]
    refine wpE_mono (hr.wpE_emit x.names ⟨h.view, hv, ht.path_eq⟩ h.owned ht.owned)
      (fun result' w' he => ?_) fun _ _ he => he
    exact ⟨he.1, _, rfl, ⟨rfl, ht⟩, he.2⟩

theorem Starts.wpE_visit (h : x.Starts start s w) (ht : Passed w.graph.bindings vs t)
    (hr : result.Shows w.graph.bindings x.aliases xs) (id : VertexId) :
    wpE (Reachability.visit x.app x.sink x.barrier start vs id result)
      (fun found w' => x.Moves w w' ∧ match x.terrain.enter id with
        | none => found.1 = none ∧ found.2.Shows w'.graph.bindings x.aliases xs
        | some r => ∃ u, found.1 = some u ∧ Waits w'.graph.bindings u (t.extend r) ∧
          found.2.Shows w'.graph.bindings x.aliases
            (xs ++ if x.accepts r then [(s, t.extend r)] else [])) Never w := by
  rw [Reachability.visit_eq, wpE_bind]
  refine wpE_of_never (h.ready.wpE_look id) fun seen w₁ hs => ?_
  obtain ⟨hm, hs⟩ := hs
  unfold Sees at hs
  show wpE _ (fun found w' => _ ∧ match (x.catalog.read x.language id).filter _ with
    | none => _ | some r => _) _ _
  cases hread : x.catalog.read x.language id with
  | none =>
    rw [hread] at hs
    subst hs
    exact ⟨hm, rfl, hr.mono hm.grows.bindings⟩
  | some r =>
    rw [hread] at hs
    obtain ⟨hid, howned⟩ := Catalog.read_eq_some hread
    obtain ⟨v, hv, rfl⟩ := hs
    rw [Option.filter_some]
    cases x.blocks r with
    | true => exact ⟨hm, rfl, hr.mono hm.grows.bindings⟩
    | false =>
      have ht₁ := (ht.mono hm.grows.bindings).extend hv howned
      subst hid
      refine wpE_mono ((h.moves hm).wpE_report ht₁ (hr.mono hm.grows.bindings) (x.accepts r))
        (fun found w' he => ?_) fun _ _ he => he
      obtain ⟨rfl, hw⟩ := he
      exact ⟨hm, hw⟩

/-! ### The edges of one vertex -/

variable {entered new closed waiting : List Trail} {marks marks' : Marks} {done : List VertexId}
  {us : List Reachability.Waiting}

/-- The findings when these trails have been entered, after those that were there before. -/
def findings (x : Search) (xs : List (Reading × Trail)) (s : Reading) (entered : List Trail) :
    List (Reading × Trail) :=
  xs ++ (Terrain.arrivals x.accepts entered).map (s, ·)

theorem findings_append (h : entered ≠ []) :
    x.findings xs s (entered ++ [t]) =
      x.findings xs s entered ++ if x.accepts t.last then [(s, t)] else [] := by
  unfold findings
  rw [Terrain.arrivals_append h, List.map_append, List.append_assoc]
  cases x.accepts t.last <;> rfl

/-- Some of the edges of a trail's end have been followed: the trails that this has led to wait, and
the sinks among their ends have been reported. -/
structure Sweeping (x : Search) (xs : List (Reading × Trail)) (start : Value) (s : Reading)
    (vs : List Value) (t : Trail) (entered new : List Trail) (done : List VertexId)
    (r : Reachability.Round) (w : World) : Prop where
  starts : x.Starts start s w
  passed : Passed w.graph.bindings vs t
  swept : x.terrain.Swept s t entered new r.marks.ids done
  waiting : List.Forall₂ (Waits w.graph.bindings) r.waiting new
  result : r.result.Shows w.graph.bindings x.aliases (x.findings xs s (entered ++ new))

namespace Sweeping
variable {r : Reachability.Round} {u : Reachability.Waiting} {y : Reading}

theorem skip (h : x.Sweeping xs start s vs t entered new done r w) (hid : r.marks.add? id = none) :
    x.Sweeping xs start s vs t entered new (done ++ [id]) r w :=
  ⟨h.starts, h.passed, h.swept.skip (Marks.mem_of_add?_eq_none hid), h.waiting, h.result⟩

theorem block (h : x.Sweeping xs start s vs t entered new done r w) (hm : x.Moves w w')
    (hid : r.marks.add? id = some marks) (hb : x.terrain.enter id = none)
    (hr : result.Shows w'.graph.bindings x.aliases (x.findings xs s (entered ++ new))) :
    x.Sweeping xs start s vs t entered new (done ++ [id]) { r with marks, result } w' where
  starts := h.starts.moves hm
  passed := h.passed.mono hm.grows.bindings
  swept := by
    show x.terrain.Swept s t entered new marks.ids _
    rw [(Marks.ids_of_add? hid).2]
    exact h.swept.block hb
  waiting := h.waiting.imp fun _ _ hw => hw.mono hm.grows.bindings
  result := hr

theorem enter (h : x.Sweeping xs start s vs t entered new done r w) (hm : x.Moves w w')
    (ht : t ∈ entered) (hf : x.terrain.Follows t) (hn : id ∈ x.next t.id)
    (hid : r.marks.add? id = some marks) (hy : x.terrain.enter id = some y)
    (hu : Waits w'.graph.bindings u (t.extend y))
    (hr : result.Shows w'.graph.bindings x.aliases
      (x.findings xs s (entered ++ new) ++ if x.accepts y then [(s, t.extend y)] else [])) :
    x.Sweeping xs start s vs t entered (new ++ [t.extend y]) (done ++ [id])
      ⟨marks, r.waiting ++ [u], result⟩ w' where
  starts := h.starts.moves hm
  passed := h.passed.mono hm.grows.bindings
  swept := by
    obtain ⟨hnew, hids⟩ := Marks.ids_of_add? hid
    show x.terrain.Swept s t entered _ marks.ids _
    rw [hids]
    exact h.swept.enter ht hf hn hy hnew
  waiting := List.rel_append (h.waiting.imp fun _ _ hw => hw.mono hm.grows.bindings)
    (.cons hu .nil)
  result := by
    have hne : entered ++ new ≠ [] := List.append_ne_nil_of_left_ne_nil (List.ne_nil_of_mem ht) new
    rw [← List.append_assoc, findings_append hne]
    exact hr

theorem wpE_follow {before : Marks} {es : List Edge} {r : Reachability.Grown before}
    (h : x.Sweeping xs start s vs t entered new done r.1 w) (ht : t ∈ entered)
    (hf : x.terrain.Follows t) (hn : ∀ e ∈ es, e.head ∈ x.next t.id) :
    wpE (Reachability.follow x.app x.sink x.barrier start vs before es r)
      (fun r' w' => x.Moves w w' ∧ ∃ new', x.Sweeping xs start s vs t entered new'
        (done ++ es.map (·.head)) r'.1 w') Never w := by
  induction es generalizing r new done w with
  | nil =>
    refine ⟨h.starts.ready.refl, new, ?_⟩
    rw [List.map_nil, List.append_nil]
    exact h
  | cons e es ih =>
    have hrest : ∀ e ∈ es, e.head ∈ x.next t.id := fun e he => hn e (List.mem_cons_of_mem _ he)
    unfold Reachability.follow
    rw [List.map_cons, List.append_cons]
    split
    · next hid => exact ih (h.skip hid) hrest
    · next marks hid =>
      rw [wpE_bind]
      refine wpE_of_never (h.starts.wpE_visit h.passed h.result e.head) fun found w₁ hv => ?_
      obtain ⟨hm, hv⟩ := hv
      obtain ⟨o, result⟩ := found
      have hgo : ∀ {new' : List Trail} {r' : Reachability.Grown before},
          x.Sweeping xs start s vs t entered new' (done ++ [e.head]) r'.1 w₁ →
          wpE (Reachability.follow x.app x.sink x.barrier start vs before es r')
            (fun r' w' => x.Moves w w' ∧ ∃ new', x.Sweeping xs start s vs t entered new'
              (done ++ [e.head] ++ es.map (·.head)) r'.1 w') Never w₁ := by
        intro new' r' h'
        exact wpE_of_never (ih h' hrest) fun _ _ hr => ⟨hm.trans hr.1, hr.2⟩
      cases hy : x.terrain.enter e.head with
      | none =>
        rw [hy] at hv
        obtain ⟨rfl, hr⟩ := hv
        exact hgo (h.block hm hid hy hr)
      | some y =>
        rw [hy] at hv
        obtain ⟨u, rfl, hu, hr⟩ := hv
        exact hgo (h.enter hm ht hf (hn e (List.mem_cons_self ..)) hid hy hu hr)

end Sweeping

/-! ### The rounds -/

theorem follows_iff {b : Bindings} {u : Reachability.Waiting} (h : Waits b u t) :
    x.flow.follows u = true ↔ x.terrain.Follows t := by
  show _ ↔ ∀ limit, x.flow.maxDepth = some limit → t.depth < limit
  unfold Reachability.follows
  rw [h.depth_eq]
  cases x.flow.maxDepth with
  | none => simp
  | some limit => simp

/-- Some trails have been followed and others wait, and the sinks among the ends of both have been
reported. -/
structure Searching (x : Search) (xs : List (Reading × Trail)) (start : Value) (s : Reading)
    (closed waiting : List Trail) (marks : Marks) (result : FlowResult)
    (us : List Reachability.Waiting) (w : World) : Prop where
  starts : x.Starts start s w
  frontier : x.terrain.Frontier s closed waiting marks.ids
  waits : List.Forall₂ (Waits w.graph.bindings) us waiting
  result : result.Shows w.graph.bindings x.aliases (x.findings xs s (closed ++ waiting))

namespace Searching
variable {u : Reachability.Waiting}

theorem asked (h : x.Searching xs start s closed waiting marks result us w) (r : Request) :
    x.Searching xs start s closed waiting marks result us
      { w with requests := w.requests.push r } :=
  ⟨⟨⟨h.starts.ready.faithful, h.starts.ready.language⟩, h.starts.view, h.starts.owned⟩, h.frontier,
    h.waits, h.result⟩

theorem pass (h : x.Searching xs start s closed (t :: waiting) marks result (u :: us) w)
    (hf : ¬ x.terrain.Follows t) :
    x.Searching xs start s (closed ++ [t]) waiting marks result us w where
  starts := h.starts
  frontier := h.frontier.pass hf
  waits := (List.forall₂_cons.1 h.waits).2
  result := by
    rw [List.append_assoc]
    exact h.result

theorem sweeping (h : x.Searching xs start s closed (t :: waiting) marks result (u :: us) w) :
    x.Sweeping xs start s u.trail t (closed ++ t :: waiting) [] [] ⟨marks, [], result⟩ w where
  starts := h.starts
  passed := (List.forall₂_cons.1 h.waits).1.passed
  swept := h.frontier.swept_nil
  waiting := .nil
  result := by
    rw [List.append_nil]
    exact h.result

theorem advance {r : Reachability.Round}
    (h : x.Searching xs start s closed (t :: waiting) marks result (u :: us) w)
    (hm : x.Moves w w')
    (hs : x.Sweeping xs start s u.trail t (closed ++ t :: waiting) new (x.next t.id) r w') :
    x.Searching xs start s (closed ++ [t]) (waiting ++ new) r.marks r.result (us ++ r.waiting)
      w' where
  starts := hs.starts
  frontier := h.frontier.advance hs.swept
  waits := List.rel_append ((List.forall₂_cons.1 h.waits).2.imp fun _ _ hw =>
    hw.mono hm.grows.bindings) hs.waiting
  result := by
    have happ : closed ++ [t] ++ (waiting ++ new) = closed ++ t :: waiting ++ new := by
      simp only [List.append_assoc, List.cons_append, List.nil_append]
    rw [happ]
    exact hs.result

theorem wpE_rounds (h : x.Searching xs start s closed waiting marks result us w) :
    wpE (x.flow.rounds x.app x.sink x.barrier start marks result us)
      (fun result' w' => x.Moves w w' ∧ ∃ found, x.terrain.Finds s x.accepts found ∧
        result'.Shows w'.graph.bindings x.aliases (xs ++ found.map (s, ·))) Never w := by
  induction marks, result, us using Reachability.rounds.induct x.flow generalizing w closed waiting with
  | case1 marks result =>
    rw [Reachability.rounds]
    have hnil : waiting = [] := by
      cases h.waits
      rfl
    subst hnil
    refine ⟨h.starts.ready.refl, _, h.frontier.finds x.accepts, ?_⟩
    have hr := h.result
    rw [List.append_nil] at hr
    exact hr
  | case2 marks result u us hf ih =>
    obtain ⟨t, waiting, hu, -, rfl⟩ := List.forall₂_cons_left_iff.1 h.waits
    rw [Reachability.rounds_cons_of_follows hf, wpE_bind, wpE_outEdges]
    obtain ⟨es, hes, hnext⟩ := x.outEdges_eq t.id
    rw [hu.vertex, hes]
    show wpE (_ >>= _) _ _ { w with requests := w.requests.push _ }
    rw [wpE_bind]
    have hsweep := (h.asked (.edges t.id x.flow.label)).sweeping
    refine wpE_of_never (hsweep.wpE_follow (r := .first marks result)
      (List.mem_append_right _ (List.mem_cons_self ..)) ((follows_iff hu).1 hf) fun e he => ?_)
      fun r w' hr => ?_
    · rw [← hnext]
      exact List.mem_map_of_mem he
    · obtain ⟨hm, new, hs⟩ := hr
      have hm : x.Moves w w' := ⟨hm.grows, hm.ready⟩
      rw [List.nil_append, hnext] at hs
      exact wpE_of_never (ih r.1 r.2 (h.advance hm hs)) fun result' w'' hr => ⟨hm.trans hr.1, hr.2⟩
  | case3 marks result u us hf ih =>
    obtain ⟨t, waiting, hu, -, rfl⟩ := List.forall₂_cons_left_iff.1 h.waits
    rw [Reachability.rounds_cons_of_not_follows hf]
    exact ih (h.pass fun hc => hf ((follows_iff hu).2 hc))

end Searching

/-- From the value of what a vertex stands for, the search finds what there is to find. -/
theorem wpE_algorithm (h : x.Starts start s w) (hr : result.Shows w.graph.bindings x.aliases xs)
    (source : Column) :
    wpE (x.flow.algorithm x.app start source x.sink x.barrier result)
      (fun result' w' => x.Moves w w' ∧ ∃ found, x.terrain.Finds s x.accepts found ∧
        result'.Shows w'.graph.bindings x.aliases (xs ++ found.map (s, ·))) Never w := by
  unfold Reachability.algorithm
  rw [wpE_bind, wpE_resolving]
  refine wpE_of_never (Context.wpE_vertexOf (h.owned.owns h.view)) fun id c he => ?_
  obtain ⟨rfl, rfl⟩ := he
  have hpassed : Passed w.graph.bindings [start] ⟨s, []⟩ := by
    refine ⟨by rw [List.map_singleton, h.view]; rfl, fun r hr => ?_⟩
    rw [List.mem_singleton.1 hr]
    exact h.owned
  have hsearch : x.Searching xs start s [] [⟨s, []⟩] (.single s.id) result [⟨s.id, [start]⟩] w := by
    refine ⟨h, .start _ s, .cons ⟨rfl, hpassed⟩ .nil, ?_⟩
    rw [findings, List.nil_append, show Terrain.arrivals x.accepts [⟨s, []⟩] = [] from rfl,
      List.map_nil, List.append_nil]
    exact hr
  exact hsearch.wpE_rounds

end Search

end CodeGraph
