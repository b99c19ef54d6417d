import CodeGraph.Proofs.Lockstep
import CodeGraph.Proofs.Traces

/-!
# What a search reaches

A `Call` is a search in any world, with any columns, from a value that belongs to a vertex. What the
vertices come to that it has not looked at is anyone's guess, so its invariants are stated for every guess
`o` that agrees with what has been seen: along the edges of the store and into the vertices that `o` lets
be entered, the trails that wait and those that have been followed are a frontier of the breadth-first
search, and the findings are reports of the trails to what is looked for. When nothing waits, the search
has found what there is to find whatever the rest may be (`Call.wpE_algorithm`).
-/

namespace CodeGraph

/-- A vertex as the end of a trail, when only its name counts. -/
def Reading.bare (id : VertexId) : Reading :=
  ⟨.file (.bare id fileLabel) "", .node (.vertex id) (.stub fileLabel) []⟩

namespace Trail
variable {t : Trail} {entered new : List Trail}

/-- Trails in an order in which a search may enter them: depths do not fall, and each trail is the start or
goes on from one of them. -/
structure Layered (entered : List Trail) : Prop where
  sorted : entered.Pairwise fun t u => t.depth ≤ u.depth
  rooted : ∀ t ∈ entered, t.past = [] ∨ ∃ u ∈ entered, t.past = u.last :: u.past

namespace Layered

theorem start (s : Reading) : Layered [⟨s, []⟩] where
  sorted := List.pairwise_singleton ..
  rooted := by simp

theorem append (h : Layered entered) (ht : t ∈ entered) (hnear : ∀ u ∈ entered, u.depth ≤ t.depth + 1)
    (hnew : ∀ u ∈ new, u.past = t.last :: t.past) : Layered (entered ++ new) where
  sorted := by
    have hdepth : ∀ u ∈ new, u.depth = t.depth + 1 := fun u hu => congrArg List.length (hnew u hu)
    refine List.pairwise_append.2 ⟨h.sorted, ?_, fun u hu x hx => ?_⟩
    · refine List.pairwise_of_forall_mem_list fun u hu x hx => ?_
      exact Nat.le_of_eq ((hdepth u hu).trans (hdepth x hx).symm)
    · rw [hdepth x hx]
      exact hnear u hu
  rooted u hu := by
    rcases List.mem_append.1 hu with hu | hu
    · refine (h.rooted u hu).imp_right ?_
      rintro ⟨x, hx, hpast⟩
      exact ⟨x, List.mem_append_left _ hx, hpast⟩
    · exact Or.inr ⟨t, List.mem_append_left _ ht, hnew u hu⟩

theorem exists_of_passed (h : Layered entered) (ht : t ∈ entered) {r : Reading}
    (hr : r ∈ t.last :: t.past) : ∃ u ∈ entered, u.last = r ∧ u.depth ≤ t.depth := by
  obtain ⟨last, past⟩ := t
  induction past generalizing last with
  | nil =>
    obtain rfl := List.mem_singleton.1 hr
    exact ⟨_, ht, rfl, Nat.le_refl _⟩
  | cons y past ih =>
    rcases List.mem_cons.1 hr with rfl | hr
    · exact ⟨_, ht, rfl, Nat.le_refl _⟩
    · rcases h.rooted _ ht with hnil | ⟨⟨_, _⟩, hu, hpast⟩
      · cases hnil
      · cases hpast
        obtain ⟨x, hx, hlast, hd⟩ := ih _ hu hr
        exact ⟨x, hx, hlast, Nat.le_succ_of_le hd⟩

theorem nodup_ids (h : Layered entered) (honce : (entered.map Trail.id).Nodup) (ht : t ∈ entered) :
    ((t.last :: t.past).map Reading.id).Nodup := by
  obtain ⟨last, past⟩ := t
  induction past generalizing last with
  | nil => exact List.nodup_singleton _
  | cons y past ih =>
    rcases h.rooted _ ht with hnil | ⟨⟨_, _⟩, hu, hpast⟩
    · cases hnil
    · cases hpast
      rw [List.map_cons, List.nodup_cons]
      refine ⟨fun hm => ?_, ih _ hu⟩
      obtain ⟨r, hr, hid⟩ := List.mem_map.1 hm
      obtain ⟨x, hx, rfl, hd⟩ := h.exists_of_passed hu hr
      obtain rfl := List.inj_on_of_nodup_map honce hx ht hid
      exact absurd hd (Nat.not_succ_le_self _)

end Layered

end Trail

namespace Reachability

/-- The ends of the edges of a vertex, if the store tells them. -/
def heads (a : App) (label : Option String) (id : VertexId) : List VertexId :=
  match a.store.outEdges id label with
  | .ok es => es.map (·.head)
  | .error _ => []

theorem wpE_outEdges_heads (a : App) (label : Option String) (id : VertexId) (w : World) :
    wpE (World.outEdges a id label) (fun es _ => heads a label id = es.map (·.head))
      (fun e w' => a.Refused e w') w := by
  rw [wpE_outEdges, heads]
  cases hes : a.store.outEdges id label with
  | ok es => rfl
  | error e => exact App.refused_push (r := .edges id label) hes w

namespace Sight

def reached : Sight → Bool
  | entered _ reached => reached
  | _ => false

/-- What may be entered, by its name alone. -/
def reading? (id : VertexId) : Sight → Option Reading
  | entered .. => some (.bare id)
  | _ => none

/-- The trails that a trail is extended to when the vertex has been visited from its end. -/
def trails (id : VertexId) (t : Trail) (s : Sight) : List Trail := (s.reading? id).toList.map t.extend

end Sight

def Within (f : Reachability) (k : Nat) : Prop := ∀ limit, f.maxDepth = some limit → k ≤ limit

def terrain (f : Reachability) (a : App) (o : VertexId → Sight) : Terrain where
  next := heads a f.label
  enter id := (o id).reading? id
  id_of_enter id r h := by
    cases hs : o id with
    | absent | blocked => rw [hs] at h; cases h
    | entered => rw [hs] at h; cases h; rfl
  maxDepth := f.maxDepth

/-- The values along a trail, latest first: the start, and what the vertices that were entered were
resolved to. -/
inductive Tracks (o : VertexId → Sight) (start : Value) (s : VertexId) : List Value → Trail → Prop where
  | start : Tracks o start s [start] ⟨.bare s, []⟩
  | step {vs : List Value} {t : Trail} {id : VertexId} {v : Value} {reached : Bool} :
    Tracks o start s vs t → o id = .entered v reached → Tracks o start s (v :: vs) (t.extend (.bare id))

structure Waits (o : VertexId → Sight) (start : Value) (s : VertexId) (u : Waiting) (t : Trail) : Prop where
  vertex : u.vertex = t.id
  tracks : Tracks o start s u.trail t

/-- The finding is a report of the trail, the end of which is looked for. -/
structure Reports (o : VertexId → Sight) (start : Value) (s : VertexId) (x : Finding) (t : Trail) :
    Prop where
  source : x.source = start
  sink : o t.id = .entered x.sink true
  tracks : Tracks o start s x.path.reverse t

section
variable {o : VertexId → Sight} {start v : Value} {s id : VertexId} {vs : List Value} {t : Trail}
  {u : Waiting} {x : Finding}

theorem Tracks.length_eq (h : Tracks o start s vs t) : vs.length = t.depth + 1 := by
  induction h with
  | start => rfl
  | step _ _ ih => rw [List.length_cons, ih, Trail.depth_extend]

theorem Waits.depth_eq (h : Waits o start s u t) : u.depth = t.depth := by
  rw [Waiting.depth, h.tracks.length_eq, Nat.add_sub_cancel]

end

/-! ### Calls -/

/-- A search in a world, from a value that belongs to a vertex. -/
structure Call where
  flow : Reachability
  app : App
  sink : Column
  barrier : Column
  start : Value
  vertex : VertexId
  aliases : FlowAliases
  /-- What has been found before. -/
  before : List Finding
  world : World
  bound : world.graph.bindings.vertex? start = some vertex

namespace Call
variable {c : Call} {o : VertexId → Sight} {seen : List (VertexId × Sight)} {marks marks' : Marks}
  {result : FlowResult} {found : List Finding} {w w' : World} {id : VertexId} {vs : List Value}
  {t : Trail} {entered new closed waiting : List Trail} {done : List VertexId} {us : List Waiting}

def terrain (c : Call) (o : VertexId → Sight) : Terrain := c.flow.terrain c.app o

/-- What the search has seen and found in the world that it has come to. -/
structure Known (c : Call) (seen : List (VertexId × Sight)) (marks : Marks) (result : FlowResult)
    (found : List Finding) (w : World) : Prop where
  trace : Trace c.app c.flow.label c.sink c.barrier c.world seen w
  marks : marks.ids = (seen.map (·.1)).reverse ++ [c.vertex]
  result : result.Lists c.aliases (c.before ++ found)

theorem Known.look {s : Sight} {w₁ : World} {result' : FlowResult} {more : List Finding}
    (h : c.Known seen marks result found w)
    (hrun : (Reachability.look c.app c.sink c.barrier id).run.run w = (.ok s, w₁))
    (hid : marks.add? id = some marks') (hr : result'.Lists c.aliases (c.before ++ found ++ more)) :
    c.Known (seen ++ [(id, s)]) marks' result' (found ++ more) w₁ where
  trace := h.trace.looked hrun
  marks := by
    rw [(Marks.ids_of_add? hid).2, h.marks, List.map_append, List.reverse_append]
    rfl
  result := by
    rw [← List.append_assoc]
    exact hr

/-- Some of the edges of a trail's end have been followed, and the new trails wait. -/
structure Sweeping (c : Call) (o : VertexId → Sight) (vs : List Value) (t : Trail)
    (entered new : List Trail) (done : List VertexId) (r : Marks) (us : List Waiting)
    (found : List Finding) : Prop where
  tracks : Tracks o c.start c.vertex vs t
  swept : (c.terrain o).Swept (.bare c.vertex) t entered new r.ids done
  extended : ∀ u ∈ new, u.past = t.last :: t.past
  waits : List.Forall₂ (Waits o c.start c.vertex) us new
  found : List.Forall₂ (Reports o c.start c.vertex) found
    (Terrain.arrivals (fun r => (o r.id).reached) (entered ++ new))

namespace Sweeping

theorem skip (h : c.Sweeping o vs t entered new done marks us found) (hid : marks.add? id = none) :
    c.Sweeping o vs t entered new (done ++ [id]) marks us found :=
  ⟨h.tracks, h.swept.skip (Marks.mem_of_add?_eq_none hid), h.extended, h.waits, h.found⟩

theorem look (h : c.Sweeping o vs t entered new done marks us found) (ht : t ∈ entered)
    (hf : (c.terrain o).Follows t) (hn : id ∈ heads c.app c.flow.label t.id)
    (hid : marks.add? id = some marks') :
    c.Sweeping o vs t entered (new ++ (o id).trails id t) (done ++ [id]) marks'
      (us ++ ((o id).next id vs).toList) (found ++ (o id).findings c.start vs) := by
  obtain ⟨hnew, hids⟩ := Marks.ids_of_add? hid
  have hclosed : (o id).reading? id = none → (o id).trails id t = [] → (o id).next id vs = none →
      (o id).findings c.start vs = [] → c.Sweeping o vs t entered (new ++ (o id).trails id t)
        (done ++ [id]) marks' (us ++ ((o id).next id vs).toList)
        (found ++ (o id).findings c.start vs) := by
    intro hr ht hn hx
    rw [ht, hn, hx, Option.toList_none, List.append_nil, List.append_nil, List.append_nil]
    exact ⟨h.tracks, hids ▸ h.swept.block hr, h.extended, h.waits, h.found⟩
  cases hs : o id with
  | absent | blocked =>
    rw [hs] at hclosed
    exact hclosed rfl rfl rfl rfl
  | entered v reached =>
    have hr : (c.terrain o).enter id = some (.bare id) := congrArg (Sight.reading? id) hs
    have htracks : Tracks o c.start c.vertex (v :: vs) (t.extend (.bare id)) := h.tracks.step hs
    have hne : entered ++ new ≠ [] := List.append_ne_nil_of_left_ne_nil (List.ne_nil_of_mem ht) new
    refine ⟨h.tracks, hids ▸ h.swept.enter ht hf hn hr hnew, ?_, ?_, ?_⟩
    · exact List.forall_mem_append.2 ⟨h.extended, List.forall_mem_singleton.2 rfl⟩
    · exact List.rel_append h.waits (.cons ⟨rfl, htracks⟩ .nil)
    · show List.Forall₂ _ _ (Terrain.arrivals _ (entered ++ (new ++ [t.extend (.bare id)])))
      rw [← List.append_assoc, Terrain.arrivals_append hne]
      refine List.rel_append h.found ?_
      have hreached : (o (Trail.last (t.extend (.bare id))).id).reached = reached :=
        congrArg Sight.reached hs
      rw [hreached]
      cases reached with
      | false => exact .nil
      | true => exact .cons ⟨rfl, hs, by rw [List.reverse_reverse]; exact htracks⟩ .nil

end Sweeping

theorem Known.nodup (h : c.Known seen marks result found w) : (c.vertex :: seen.map (·.1)).Nodup := by
  have hn := marks.nodup
  rwa [h.marks, ← List.reverse_cons, List.nodup_reverse] at hn

theorem Known.exists_agrees (h : c.Known seen marks result found w) :
    ∃ o, Agrees o seen ∧ ∀ id, (id, o id) ∈ seen ∨ o id = .absent :=
  Reachability.exists_agrees (List.nodup_cons.1 h.nodup).2 fun _ => .absent

/-- The edges of a vertex are followed to the last, unless the store refuses a request. -/
theorem wpE_follow {before : Marks} {es : List Edge} {r : Grown before}
    (hk : c.Known seen r.1.marks r.1.result found w)
    (h : ∀ o, Agrees o seen → c.Sweeping o vs t entered new done r.1.marks r.1.waiting found)
    (ht : t ∈ entered) (hf : ∀ limit, c.flow.maxDepth = some limit → t.depth < limit)
    (hn : ∀ e ∈ es, e.head ∈ heads c.app c.flow.label t.id) :
    wpE (follow c.app c.sink c.barrier c.start vs before es r)
      (fun r' w' => ∃ seen' new' found', seen <+: seen' ∧
        c.Known seen' r'.1.marks r'.1.result found' w' ∧
        ∀ o, Agrees o seen' → c.Sweeping o vs t entered new' (done ++ es.map (·.head)) r'.1.marks
          r'.1.waiting found') (fun e w' => c.app.Refused e w') w := by
  induction es generalizing r new done seen found w with
  | nil =>
    refine ⟨seen, new, found, List.prefix_refl seen, hk, ?_⟩
    rw [List.map_nil, List.append_nil]
    exact h
  | cons e es ih =>
    have hrest : ∀ e ∈ es, e.head ∈ heads c.app c.flow.label t.id := fun e he =>
      hn e (List.mem_cons_of_mem _ he)
    rw [List.map_cons, List.append_cons]
    cases hid : r.1.marks.add? e.head with
    | none =>
      rw [follow_cons_of_none hid]
      exact ih hk (fun o ho => (h o ho).skip hid) hrest
    | some marks =>
      rw [follow_cons_of_some hid, visit_eq, wpE_bind, wpE_bind]
      refine wpE_mono (wpE_and_run (wpE_look w)) (fun s w₁ hs => ?_) fun _ _ he => he
      refine wpE_of_never (wpE_report hk.result s) fun x w₂ hx => ?_
      obtain ⟨rfl, hnext, hresult⟩ := hx
      have hprefix : seen <+: seen ++ [(e.head, s)] := List.prefix_append ..
      have hstep : ∀ o, Agrees o (seen ++ [(e.head, s)]) → c.Sweeping o vs t entered
          (new ++ s.trails e.head t) (done ++ [e.head]) (r.met hid x).1.marks (r.met hid x).1.waiting
          (found ++ s.findings c.start vs) := by
        intro o ho
        have hlook := (h o (ho.of_prefix hprefix)).look ht hf (hn e (List.mem_cons_self ..)) hid
        have hseen : o e.head = s := ho (e.head, s) (by simp)
        rw [hseen, ← hnext] at hlook
        exact hlook
      refine wpE_mono (ih (hk.look hs.1 hid hresult) hstep hrest) (fun r' w' hr => ?_) fun _ _ he => he
      obtain ⟨seen', new', found', hp, hr⟩ := hr
      exact ⟨seen', new', found', hprefix.trans hp, hr⟩

/-! ### The rounds -/

/-- Some trails have been followed and others wait, and the ends of both that are looked for have been
reported. -/
structure Searching (c : Call) (o : VertexId → Sight) (closed waiting : List Trail) (marks : Marks)
    (us : List Waiting) (found : List Finding) : Prop where
  frontier : (c.terrain o).Frontier (.bare c.vertex) closed waiting marks.ids
  layered : Trail.Layered (closed ++ waiting)
  waits : List.Forall₂ (Waits o c.start c.vertex) us waiting
  found : List.Forall₂ (Reports o c.start c.vertex) found
    (Terrain.arrivals (fun r => (o r.id).reached) (closed ++ waiting))

namespace Searching
variable {u : Waiting}

theorem pass (h : c.Searching o closed (t :: waiting) marks (u :: us) found)
    (hf : ¬ (c.terrain o).Follows t) : c.Searching o (closed ++ [t]) waiting marks us found where
  frontier := h.frontier.pass hf
  layered := by
    rw [List.append_assoc]
    exact h.layered
  waits := (List.forall₂_cons.1 h.waits).2
  found := by
    rw [List.append_assoc]
    exact h.found

theorem sweeping (h : c.Searching o closed (t :: waiting) marks (u :: us) found) :
    c.Sweeping o u.trail t (closed ++ t :: waiting) [] [] marks [] found where
  tracks := (List.forall₂_cons.1 h.waits).1.tracks
  swept := h.frontier.swept_nil
  extended := by simp
  waits := .nil
  found := by
    rw [List.append_nil]
    exact h.found

theorem advance {more : List Waiting} {found' : List Finding}
    (h : c.Searching o closed (t :: waiting) marks (u :: us) found)
    (hs : c.Sweeping o u.trail t (closed ++ t :: waiting) new (heads c.app c.flow.label t.id) marks' more
      found') :
    c.Searching o (closed ++ [t]) (waiting ++ new) marks' (us ++ more) found' := by
  have happ : closed ++ [t] ++ (waiting ++ new) = closed ++ t :: waiting ++ new := by simp
  have hnear := h.frontier.near t (List.mem_cons_self ..)
  refine ⟨h.frontier.advance hs.swept, ?_, List.rel_append (List.forall₂_cons.1 h.waits).2 hs.waits, ?_⟩
  · rw [happ]
    exact h.layered.append (by simp) hnear hs.extended
  · rw [happ]
    exact hs.found

end Searching

theorem follows_iff {f : Reachability} {u : Waiting} (h : u.depth = t.depth) :
    f.follows u = true ↔ ∀ limit, f.maxDepth = some limit → t.depth < limit := by
  unfold follows
  rw [h]
  cases f.maxDepth <;> simp

theorem wpE_rounds (hk : c.Known seen marks result found w)
    (h : ∀ o, Agrees o seen → c.Searching o closed waiting marks us found) :
    wpE (c.flow.rounds c.app c.sink c.barrier c.start marks result us)
      (fun result' w' => ∃ seen' closed' marks' found', c.Known seen' marks' result' found' w' ∧
        ∀ o, Agrees o seen' → c.Searching o closed' [] marks' [] found')
      (fun e w' => c.app.Refused e w') w := by
  obtain ⟨o, ho, -⟩ := hk.exists_agrees
  have hwaits := (h o ho).waits
  induction marks, result, us using rounds.induct c.flow generalizing w closed waiting seen found o with
  | case1 marks result =>
    cases hwaits
    rw [rounds]
    exact ⟨seen, closed, marks, found, hk, h⟩
  | case2 marks result u us hf ih =>
    obtain ⟨t, waiting, hu, -, rfl⟩ := List.forall₂_cons_left_iff.1 hwaits
    rw [rounds_cons_of_follows hf, wpE_bind, hu.vertex]
    refine wpE_mono (wpE_and_run (wpE_outEdges_heads ..)) (fun es w₁ hes => ?_) fun _ _ he => he
    obtain ⟨hrun, hheads⟩ := hes
    have hk₁ : c.Known seen marks result found w₁ := ⟨hk.trace.asked hrun, hk.marks, hk.result⟩
    rw [wpE_bind]
    refine wpE_mono (wpE_follow (r := Grown.first marks result) hk₁ (fun o ho => (h o ho).sweeping)
      (List.mem_append_right _ (List.mem_cons_self ..)) ((follows_iff hu.depth_eq).1 hf) fun e he => ?_)
      (fun r w₂ hr => ?_) fun _ _ he => he
    · rw [hheads]
      exact List.mem_map_of_mem he
    · obtain ⟨seen', new, found', hp, hk₂, hs⟩ := hr
      rw [List.nil_append, ← hheads] at hs
      obtain ⟨o', ho', -⟩ := hk₂.exists_agrees
      have hnext : ∀ o, Agrees o seen' → c.Searching o (closed ++ [t]) (waiting ++ new) r.1.marks
          (us ++ r.1.waiting) found' := fun o ho => (h o (ho.of_prefix hp)).advance (hs o ho)
      exact ih r.1 r.2 hk₂ hnext o' ho' (hnext o' ho').waits
  | case3 marks result u us hf ih =>
    obtain ⟨t, waiting, hu, -, rfl⟩ := List.forall₂_cons_left_iff.1 hwaits
    have hpass : ¬ (c.terrain o).Follows t := fun hc => hf ((follows_iff hu.depth_eq).2 hc)
    rw [rounds_cons_of_not_follows hf]
    exact ih hk (fun o ho => (h o ho).pass hpass) o ho (List.forall₂_cons.1 hwaits).2

/-- From a value that belongs to a vertex, the search goes on until nothing waits, unless the store refuses
a request. -/
theorem wpE_algorithm (hr : result.Lists c.aliases c.before) (source : Column) :
    wpE (c.flow.algorithm c.app c.start source c.sink c.barrier result)
      (fun result' w' => ∃ seen closed marks found, c.Known seen marks result' found w' ∧
        ∀ o, Agrees o seen → c.Searching o closed [] marks [] found)
      (fun e w' => c.app.Refused e w') c.world := by
  unfold algorithm Context.vertexOf
  rw [wpE_bind, wpE_resolving, wpE_bind, wpE_get, c.bound]
  have hk : c.Known [] (.single c.vertex) result [] c.world := ⟨.start, rfl, by rwa [List.append_nil]⟩
  exact wpE_rounds hk fun o _ => ⟨.start _ (.bare c.vertex), .start _, .cons ⟨rfl, .start⟩ .nil, .nil⟩

end Call

end Reachability

end CodeGraph
