import CodeGraph.Proofs.Listing

/-!
# Breadth-first search

A search sees a graph as a `Terrain`: where the edges of a vertex lead, and what a vertex stands for
that may be entered. It enters a vertex by a trail, once, and marks every vertex that it meets.
`Explored` says what trails and marks have to do with each other at any time, and `Frontier` what
the trails still to be followed have to do with those that have been: the depths of the former do
not fall, no depth is more than one above the first of them, and a trail that has been followed has
had all its neighbours entered, at most one deeper. From this a search with nothing left to follow
has entered every vertex that any trail within the limit leads to (`Frontier.complete`).
-/

namespace CodeGraph

/-- A graph as a search sees it. -/
structure Terrain where
  next : VertexId → List VertexId
  enter : VertexId → Option Reading
  id_of_enter : ∀ id r, enter id = some r → r.id = id
  maxDepth : Option Nat

/-- A way through a graph: where it ends, and what it has passed, latest first. -/
structure Trail where
  last : Reading
  past : List Reading

namespace Trail

def id (t : Trail) : VertexId := t.last.id

def depth (t : Trail) : Nat := t.past.length

def extend (t : Trail) (r : Reading) : Trail := ⟨r, t.last :: t.past⟩

def path (t : Trail) : List Reading := (t.last :: t.past).reverse

theorem depth_extend (t : Trail) (r : Reading) : (t.extend r).depth = t.depth + 1 := rfl

end Trail

namespace Terrain
variable {g : Terrain} {s r : Reading} {t : Trail} {entered closed waiting new : List Trail}
  {marks marks' done : List VertexId} {id : VertexId}

def Follows (g : Terrain) (t : Trail) : Prop := ∀ limit, g.maxDepth = some limit → t.depth < limit

def Within (g : Terrain) (t : Trail) : Prop := ∀ limit, g.maxDepth = some limit → t.depth ≤ limit

/-- The trails from a start along edges to vertices that may be entered. -/
inductive Leads (g : Terrain) (s : Reading) : Trail → Prop where
  | start : Leads g s ⟨s, []⟩
  | step {t : Trail} {r : Reading} : Leads g s t → r.id ∈ g.next t.id → g.enter r.id = some r →
      Leads g s (t.extend r)

theorem Leads.enter_eq (h : g.Leads s t) (ht : t.id ≠ s.id) : g.enter t.id = some t.last := by
  cases h with
  | start => exact absurd rfl ht
  | step _ _ he => exact he

theorem Leads.depth_pos (h : g.Leads s t) (ht : t.id ≠ s.id) : 0 < t.depth := by
  cases h with
  | start => exact absurd rfl ht
  | step _ _ _ => exact Nat.zero_lt_succ _

/-- The trails by which vertices have been entered, the start first, and the vertices met. -/
structure Explored (g : Terrain) (s : Reading) (entered : List Trail) (marks : List VertexId) :
    Prop where
  first : ∃ rest, entered = ⟨s, []⟩ :: rest
  leads : ∀ t ∈ entered, g.Leads s t ∧ g.Within t
  once : (entered.map Trail.id).Nodup
  marked : ∀ t ∈ entered, t.id ∈ marks
  met : ∀ id ∈ marks, g.enter id ≠ none → ∃ t ∈ entered, t.id = id

namespace Explored

theorem start (g : Terrain) (s : Reading) : g.Explored s [⟨s, []⟩] [s.id] where
  first := ⟨[], rfl⟩
  leads t ht := by
    rw [List.mem_singleton.1 ht]
    exact ⟨.start, fun _ _ => Nat.zero_le _⟩
  once := List.pairwise_singleton ..
  marked t ht := by
    rw [List.mem_singleton.1 ht]
    exact List.mem_singleton.2 rfl
  met id hid _ := ⟨⟨s, []⟩, List.mem_singleton.2 rfl, (List.mem_singleton.1 hid).symm⟩

theorem block (h : g.Explored s entered marks) (hb : g.enter id = none) :
    g.Explored s entered (id :: marks) where
  first := h.first
  leads := h.leads
  once := h.once
  marked t ht := List.mem_cons_of_mem _ (h.marked t ht)
  met id' hid' he := by
    rcases List.mem_cons.1 hid' with rfl | hid'
    · exact absurd hb he
    · exact h.met id' hid' he

theorem enter (h : g.Explored s entered marks) (ht : t ∈ entered) (hf : g.Follows t)
    (hn : id ∈ g.next t.id) (hr : g.enter id = some r) (hnew : id ∉ marks) :
    g.Explored s (entered ++ [t.extend r]) (id :: marks) := by
  have hid : r.id = id := g.id_of_enter id r hr
  obtain ⟨rest, hfirst⟩ := h.first
  refine ⟨⟨rest ++ [t.extend r], by rw [hfirst]; rfl⟩, fun u hu => ?_, ?_, fun u hu => ?_,
    fun id' hid' he => ?_⟩
  · rcases List.mem_append.1 hu with hu | hu
    · exact h.leads u hu
    · rw [List.mem_singleton.1 hu]
      refine ⟨.step (h.leads t ht).1 (by rw [hid]; exact hn) (by rw [hid]; exact hr), ?_⟩
      exact fun limit hlimit => hf limit hlimit
  · rw [List.map_append, List.nodup_append]
    refine ⟨h.once, List.pairwise_singleton .., fun x hx y hy hxy => hnew ?_⟩
    obtain ⟨u, hu, rfl⟩ := List.mem_map.1 hx
    have hy' : y = r.id := List.mem_singleton.1 hy
    rw [← hid, ← hy', ← hxy]
    exact h.marked u hu
  · rcases List.mem_append.1 hu with hu | hu
    · exact List.mem_cons_of_mem _ (h.marked u hu)
    · rw [List.mem_singleton.1 hu]
      show r.id ∈ _
      rw [hid]
      exact List.mem_cons_self ..
  · rcases List.mem_cons.1 hid' with rfl | hid'
    · exact ⟨t.extend r, List.mem_append_right _ (List.mem_singleton.2 rfl), hid⟩
    · obtain ⟨u, hu, hu'⟩ := h.met id' hid' he
      exact ⟨u, List.mem_append_left _ hu, hu'⟩

end Explored

/-- Some of the edges of a trail's end have been followed, which has led to the new trails. -/
structure Swept (g : Terrain) (s : Reading) (t : Trail) (entered new : List Trail)
    (marks done : List VertexId) : Prop where
  explored : g.Explored s (entered ++ new) marks
  depth : ∀ u ∈ new, u.depth = t.depth + 1
  done : ∀ id ∈ done, id ∈ marks

namespace Swept

theorem skip (h : g.Swept s t entered new marks done) (hid : id ∈ marks) :
    g.Swept s t entered new marks (done ++ [id]) := by
  refine ⟨h.explored, h.depth, fun x hx => ?_⟩
  rcases List.mem_append.1 hx with hx | hx
  · exact h.done x hx
  · rw [List.mem_singleton.1 hx]
    exact hid

theorem done_cons (h : g.Swept s t entered new marks done) :
    ∀ x ∈ done ++ [id], x ∈ id :: marks := by
  intro x hx
  rcases List.mem_append.1 hx with hx | hx
  · exact List.mem_cons_of_mem _ (h.done x hx)
  · rw [List.mem_singleton.1 hx]
    exact List.mem_cons_self ..

theorem block (h : g.Swept s t entered new marks done) (hb : g.enter id = none) :
    g.Swept s t entered new (id :: marks) (done ++ [id]) :=
  ⟨h.explored.block hb, h.depth, h.done_cons⟩

theorem enter (h : g.Swept s t entered new marks done) (ht : t ∈ entered) (hf : g.Follows t)
    (hn : id ∈ g.next t.id) (hr : g.enter id = some r) (hnew : id ∉ marks) :
    g.Swept s t entered (new ++ [t.extend r]) (id :: marks) (done ++ [id]) := by
  refine ⟨?_, fun u hu => ?_, h.done_cons⟩
  · rw [← List.append_assoc]
    exact h.explored.enter (List.mem_append_left _ ht) hf hn hr hnew
  · rcases List.mem_append.1 hu with hu | hu
    · exact h.depth u hu
    · rw [List.mem_singleton.1 hu]
      exact t.depth_extend r

end Swept

/-- The trails that have been followed, those that wait, and the vertices met. -/
structure Frontier (g : Terrain) (s : Reading) (closed waiting : List Trail)
    (marks : List VertexId) : Prop where
  explored : g.Explored s (closed ++ waiting) marks
  sorted : waiting.Pairwise fun t u => t.depth ≤ u.depth
  near : ∀ t ∈ waiting, ∀ u ∈ closed ++ waiting, u.depth ≤ t.depth + 1
  swept : ∀ t ∈ closed, g.Follows t → ∀ id ∈ g.next t.id, g.enter id ≠ none →
    ∃ u ∈ closed ++ waiting, u.id = id ∧ u.depth ≤ t.depth + 1

namespace Frontier

theorem start (g : Terrain) (s : Reading) : g.Frontier s [] [⟨s, []⟩] [s.id] where
  explored := .start g s
  sorted := List.pairwise_singleton ..
  near t ht u hu := by
    rw [List.mem_singleton.1 hu]
    exact Nat.zero_le _
  swept t ht := absurd ht List.not_mem_nil

theorem swept_nil (h : g.Frontier s closed (t :: waiting) marks) :
    g.Swept s t (closed ++ t :: waiting) [] marks [] :=
  ⟨by rw [List.append_nil]; exact h.explored, by simp, by simp⟩

theorem pass (h : g.Frontier s closed (t :: waiting) marks) (hf : ¬ g.Follows t) :
    g.Frontier s (closed ++ [t]) waiting marks := by
  have happ : closed ++ [t] ++ waiting = closed ++ t :: waiting := by rw [List.append_assoc]; rfl
  refine ⟨by rw [happ]; exact h.explored, (List.pairwise_cons.1 h.sorted).2, fun u hu x hx => ?_,
    fun u hu hfu => ?_⟩
  · rw [happ] at hx
    exact h.near u (List.mem_cons_of_mem _ hu) x hx
  · rw [happ]
    rcases List.mem_append.1 hu with hu | hu
    · exact h.swept u hu hfu
    · rw [List.mem_singleton.1 hu] at hfu
      exact absurd hfu hf

theorem advance (h : g.Frontier s closed (t :: waiting) marks)
    (hs : g.Swept s t (closed ++ t :: waiting) new marks' (g.next t.id)) :
    g.Frontier s (closed ++ [t]) (waiting ++ new) marks' := by
  have happ : closed ++ [t] ++ (waiting ++ new) = closed ++ t :: waiting ++ new := by
    simp only [List.append_assoc, List.cons_append, List.nil_append]
  have hle : ∀ u ∈ waiting, t.depth ≤ u.depth := (List.pairwise_cons.1 h.sorted).1
  have hbound : ∀ u ∈ closed ++ t :: waiting ++ new, u.depth ≤ t.depth + 1 := by
    intro u hu
    rcases List.mem_append.1 hu with hu | hu
    · exact h.near t (List.mem_cons_self ..) u hu
    · exact Nat.le_of_eq (hs.depth u hu)
  refine ⟨by rw [happ]; exact hs.explored, ?_, fun u hu x hx => ?_, fun u hu hfu id hid he => ?_⟩
  · -- what is new lies one deeper than `t`, and nothing that waits lies deeper than that
    rw [List.pairwise_append]
    refine ⟨(List.pairwise_cons.1 h.sorted).2, ?_, fun u hu x hx => ?_⟩
    · exact List.pairwise_of_forall_mem_list fun u hu x hx =>
        Nat.le_of_eq ((hs.depth u hu).trans (hs.depth x hx).symm)
    · rw [hs.depth x hx]
      exact h.near t (List.mem_cons_self ..) u
        (List.mem_append_right _ (List.mem_cons_of_mem _ hu))
  · rw [happ] at hx
    have hx' := hbound x hx
    rcases List.mem_append.1 hu with hu | hu
    · have := hle u hu
      omega
    · have := hs.depth u hu
      omega
  · rw [happ]
    rcases List.mem_append.1 hu with hu | hu
    · obtain ⟨x, hx, hxid, hxd⟩ := h.swept u hu hfu id hid he
      exact ⟨x, List.mem_append_left _ hx, hxid, hxd⟩
    · rw [List.mem_singleton.1 hu] at hid ⊢
      obtain ⟨x, hx, hxid⟩ := hs.explored.met id (hs.done id hid) he
      exact ⟨x, hx, hxid, hbound x hx⟩

/-- When nothing waits, every vertex that a trail within the limit leads to has been entered. -/
theorem complete (h : g.Frontier s closed [] marks) (ht : g.Leads s t) (hw : g.Within t) :
    ∃ u ∈ closed, u.id = t.id ∧ u.depth ≤ t.depth := by
  have happ : closed ++ [] = closed := List.append_nil closed
  induction ht with
  | start =>
    obtain ⟨rest, hfirst⟩ := h.explored.first
    rw [happ] at hfirst
    exact ⟨⟨s, []⟩, by rw [hfirst]; exact List.mem_cons_self .., rfl, Nat.le_refl _⟩
  | @step t r _ hn he ih =>
    obtain ⟨u, hu, huid, hud⟩ := ih fun limit hlimit => Nat.le_of_succ_le (hw limit hlimit)
    have hf : g.Follows u := fun limit hlimit => Nat.lt_of_le_of_lt hud (hw limit hlimit)
    obtain ⟨x, hx, hxid, hxd⟩ := h.swept u hu hf r.id (by rw [huid]; exact hn)
      (by rw [he]; exact Option.some_ne_none r)
    rw [happ] at hx
    exact ⟨x, hx, hxid, Nat.le_trans hxd (Nat.succ_le_succ hud)⟩

end Frontier

/-- The trails found are one to each vertex, other than the start, that is accepted and that some
trail within the limit leads to. -/
structure Finds (g : Terrain) (s : Reading) (accepts : Reading → Bool) (found : List Trail) : Prop where
  sound : ∀ t ∈ found, g.Leads s t ∧ g.Within t ∧ accepts t.last = true ∧ t.id ≠ s.id
  complete : ∀ t, g.Leads s t → g.Within t → accepts t.last = true → t.id ≠ s.id →
    ∃ u ∈ found, u.last = t.last
  once : (found.map Trail.id).Nodup

/-- Of the trails entered, those that end where the search looks. -/
def arrivals (accepts : Reading → Bool) (entered : List Trail) : List Trail :=
  entered.tail.filter fun t => accepts t.last

theorem arrivals_append {accepts : Reading → Bool} (h : entered ≠ []) :
    arrivals accepts (entered ++ [t]) =
      arrivals accepts entered ++ if accepts t.last then [t] else [] := by
  unfold arrivals
  rw [List.tail_append_of_ne_nil h, List.filter_append, List.filter_cons, List.filter_nil]

theorem Frontier.finds (h : g.Frontier s closed [] marks) (accepts : Reading → Bool) :
    g.Finds s accepts (arrivals accepts closed) := by
  have he : g.Explored s closed marks := by
    rw [← List.append_nil closed]
    exact h.explored
  obtain ⟨rest, hfirst⟩ := he.first
  have hnd := he.once
  rw [hfirst, List.map_cons, List.nodup_cons] at hnd
  have hne : ∀ t ∈ rest, t.id ≠ s.id := fun t ht heq =>
    hnd.1 (List.mem_map.2 ⟨t, ht, heq⟩)
  unfold arrivals
  rw [hfirst, List.tail_cons]
  refine ⟨fun t ht => ?_, fun t ht hw ha hid => ?_, ?_⟩
  · obtain ⟨ht, ha⟩ := List.mem_filter.1 ht
    obtain ⟨hl, hw⟩ := he.leads t (by rw [hfirst]; exact List.mem_cons_of_mem _ ht)
    exact ⟨hl, hw, ha, hne t ht⟩
  · obtain ⟨u, hu, huid, -⟩ := h.complete ht hw
    have hlast : u.last = t.last := by
      have hu' := (he.leads u hu).1.enter_eq (by rw [huid]; exact hid)
      rw [huid, ht.enter_eq hid] at hu'
      exact (Option.some.inj hu').symm
    rw [hfirst] at hu
    rcases List.mem_cons.1 hu with rfl | hu
    · exact absurd huid.symm hid
    · exact ⟨u, List.mem_filter.2 ⟨hu, by rw [hlast]; exact ha⟩, hlast⟩
  · exact hnd.2.sublist (List.filter_sublist.map _)

/-- The pairs found from several starts: a start is paired with the trails to the vertices that are
accepted and that it leads to within the limit, other than itself, one trail to each. -/
structure Answers (g : Terrain) (starts : List Reading) (accepts : Reading → Bool)
    (pairs : List (Reading × Trail)) : Prop where
  leads : ∀ x ∈ pairs, g.Leads x.1 x.2 ∧ g.Within x.2
  mem_iff : ∀ s r, (∃ t, (s, t) ∈ pairs ∧ t.last = r) ↔ s ∈ starts ∧ accepts r = true ∧
    r.id ≠ s.id ∧ ∃ t, g.Leads s t ∧ g.Within t ∧ 0 < t.depth ∧ t.last = r
  once : (pairs.map fun x => (x.1.id, x.2.id)).Nodup
  /-- The pairs of a start come together, in the order of the starts. -/
  grouped : pairs.Pairwise fun x y => x.1 = y.1 ∨ [x.1, y.1].Sublist starts

/-- What is found from each start together answers the search from all. -/
theorem answers_of_finds {accepts : Reading → Bool} {groups : List (Reading × List Trail)}
    (h : ∀ x ∈ groups, g.Finds x.1 accepts x.2) (hn : ((groups.map (·.1)).map Reading.id).Nodup) :
    g.Answers (groups.map (·.1)) accepts (groups.flatMap fun x => x.2.map (x.1, ·)) where
  leads y hy := by
    obtain ⟨x, hx, hy⟩ := List.mem_flatMap.1 hy
    obtain ⟨t, ht, rfl⟩ := List.mem_map.1 hy
    obtain ⟨hl, hw, -⟩ := (h x hx).sound t ht
    exact ⟨hl, hw⟩
  mem_iff s r := by
    constructor
    · rintro ⟨t, hm, rfl⟩
      obtain ⟨x, hx, hm⟩ := List.mem_flatMap.1 hm
      obtain ⟨u, hu, heq⟩ := List.mem_map.1 hm
      cases heq
      obtain ⟨hl, hw, ha, hne⟩ := (h x hx).sound t hu
      exact ⟨List.mem_map_of_mem hx, ha, hne, t, hl, hw, hl.depth_pos hne, rfl⟩
    · rintro ⟨hs, ha, hne, t, hl, hw, -, rfl⟩
      obtain ⟨x, hx, rfl⟩ := List.mem_map.1 hs
      obtain ⟨u, hu, hlast⟩ := (h x hx).complete t hl hw ha hne
      exact ⟨u, List.mem_flatMap.2 ⟨x, hx, List.mem_map_of_mem hu⟩, hlast⟩
  once := by
    rw [List.map_map, List.Nodup, List.pairwise_map] at hn
    rw [List.Nodup, List.pairwise_map, List.pairwise_flatMap]
    refine ⟨fun x hx => ?_, hn.imp fun hne y hy z hz heq => hne ?_⟩
    · have honce := (h x hx).once
      rw [List.Nodup, List.pairwise_map] at honce
      rw [List.pairwise_map]
      exact honce.imp fun hne heq => hne (Prod.mk.inj heq).2
    · obtain ⟨t, -, rfl⟩ := List.mem_map.1 hy
      obtain ⟨u, -, rfl⟩ := List.mem_map.1 hz
      exact (Prod.mk.inj heq).1
  grouped := by
    rw [List.pairwise_flatMap]
    refine ⟨fun x hx => ?_, List.pairwise_iff_forall_sublist.2 fun hsub y hy z hz => ?_⟩
    · rw [List.pairwise_map]
      exact List.pairwise_of_forall fun _ _ => Or.inl rfl
    · obtain ⟨t, -, rfl⟩ := List.mem_map.1 hy
      obtain ⟨u, -, rfl⟩ := List.mem_map.1 hz
      exact Or.inr (hsub.map Prod.fst)

end Terrain

end CodeGraph
