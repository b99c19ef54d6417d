import Mathlib.Data.List.Forall2
import CodeGraph.Proofs.Sights
import CodeGraph.Query.Retracing

/-!
# Retraced paths

The origins that a search keeps have a way back from each vertex that is due, through vertices that have
been met, each only once (`Origins.Way`). What is entered later is none of these vertices, so the way stays,
and the path that is retraced along it is the one that the other search has carried with it: it comes to an
end at the start, and no step is lost for want of a value. So both searches are the same
(`Reachability.retracing_eq`).
-/

namespace CodeGraph

namespace Reachability

namespace Origins
variable {o o' o'' : Origins} {parents : Std.HashMap VertexId VertexId} {id parent new : VertexId}
  {ids met met' met'' : List VertexId} {v : Value} {vs : List Value}

/-- The way back from a vertex goes through these vertices, each only once, and these are their values. -/
inductive Way (o : Origins) : VertexId → List VertexId → List Value → Prop where
  | start {id : VertexId} {v : Value} : o.parents[id]? = none → o.values[id]? = some v → Way o id [id] [v]
  | step {id parent : VertexId} {ids : List VertexId} {v : Value} {vs : List Value} : Way o parent ids vs →
    o.parents[id]? = some parent → o.values[id]? = some v → id ∉ ids → Way o id (id :: ids) (v :: vs)

theorem way_start (id : VertexId) (v : Value) : (Origins.start id v).Way id [id] [v] :=
  .start Std.HashMap.getElem?_empty Std.HashMap.getElem?_insert_self

theorem wayBack_of_none (h : parents[id]? = none) : wayBack parents id = [id] := by
  rw [wayBack]
  split
  · rfl
  · next hs => cases h.symm.trans hs

theorem wayBack_of_some (h : parents[id]? = some parent) :
    wayBack parents id = id :: wayBack (parents.erase id) parent := by
  rw [wayBack]
  split
  · next hs => cases h.symm.trans hs
  · next hs =>
    cases h.symm.trans hs
    rfl

namespace Way

theorem length_pos (h : o.Way id ids vs) : 0 < vs.length := by
  cases h <;> exact Nat.succ_pos _

/-- The vertices that have been left do not come again, so it does not matter that they are forgotten. -/
theorem wayBack_eq (h : o.Way id ids vs) (hp : ∀ x ∈ ids, parents[x]? = o.parents[x]?) :
    wayBack parents id = ids := by
  induction h generalizing parents with
  | start hnone _ => exact wayBack_of_none ((hp _ (List.mem_cons_self ..)).trans hnone)
  | @step id parent ids v vs _ hsome _ hn ih =>
    rw [wayBack_of_some ((hp _ (List.mem_cons_self ..)).trans hsome), ih fun x hx => ?_]
    have hne : ¬ (id == x) = true := fun heq => hn (eq_of_beq heq ▸ hx)
    rw [Std.HashMap.getElem?_erase, if_neg hne]
    exact hp x (List.mem_cons_of_mem _ hx)

theorem path_eq (h : o.Way id ids vs) : o.path id = vs.reverse := by
  have hvalues : ids.filterMap (o.values[·]?) = vs := by
    induction h with
    | start _ hv => rw [List.filterMap_cons_some hv, List.filterMap_nil]
    | step _ _ hv _ ih => rw [List.filterMap_cons_some hv, ih]
  rw [path, h.wayBack_eq fun _ _ => rfl, List.filterMap_reverse, hvalues]

theorem enter (h : o.Way id ids vs) (hnew : new ∉ ids) : (o.enter new parent v).Way id ids vs := by
  have hother : ∀ {x}, x ∈ ids → ¬ (new == x) = true := fun hx heq => hnew (eq_of_beq heq ▸ hx)
  induction h with
  | start hnone hv =>
    have hne := hother (List.mem_cons_self ..)
    refine .start ?_ ?_
    · exact (Std.HashMap.getElem?_insert.trans (if_neg hne)).trans hnone
    · exact (Std.HashMap.getElem?_insert.trans (if_neg hne)).trans hv
  | step _ hsome hv hn ih =>
    have hne := hother (List.mem_cons_self ..)
    refine .step (ih (fun hm => hnew (List.mem_cons_of_mem _ hm)) fun hx =>
      hother (List.mem_cons_of_mem _ hx)) ?_ ?_ hn
    · exact (Std.HashMap.getElem?_insert.trans (if_neg hne)).trans hsome
    · exact (Std.HashMap.getElem?_insert.trans (if_neg hne)).trans hv

theorem entered (h : o.Way parent ids vs) (hnew : new ∉ ids) :
    (o.enter new parent v).Way new (new :: ids) (v :: vs) :=
  .step (h.enter hnew) Std.HashMap.getElem?_insert_self Std.HashMap.getElem?_insert_self hnew

end Way

/-- All ways through vertices that were met are still there. -/
structure Grows (o : Origins) (met : List VertexId) (o' : Origins) (met' : List VertexId) : Prop where
  way : ∀ {id ids vs}, o.Way id ids vs → ids ⊆ met → o'.Way id ids vs
  met : met ⊆ met'

namespace Grows

theorem refl (o : Origins) (met : List VertexId) : Grows o met o met := ⟨fun h _ => h, fun _ h => h⟩

theorem trans (h : Grows o met o' met') (h' : Grows o' met' o'' met'') : Grows o met o'' met'' :=
  ⟨fun hw hs => h'.way (h.way hw hs) fun _ hx => h.met (hs hx), fun _ hx => h'.met (h.met hx)⟩

theorem meet (o : Origins) (met : List VertexId) (new : VertexId) : Grows o met o (new :: met) :=
  ⟨fun h _ => h, List.subset_cons_self ..⟩

theorem enter (hnew : new ∉ met) : Grows o met (o.enter new parent v) (new :: met) :=
  ⟨fun h hs => h.enter fun hm => hnew (hs hm), List.subset_cons_self ..⟩

end Grows

end Origins

open Origins

/-- The way back from the vertex that is due is the trail that waits, through vertices that were met. -/
structure Matches (o : Origins) (met : List VertexId) (u : Due) (w : Waiting) : Prop where
  vertex : u.vertex = w.vertex
  depth : u.depth = w.depth
  way : ∃ ids, o.Way u.vertex ids w.trail ∧ ids ⊆ met

variable {f : Reachability} {a : App} {sink barrier : Column} {start : Value} {o o' : Origins}
  {met met' : List VertexId} {u : Due} {us : List Due} {w : Waiting} {ws : List Waiting} {id : VertexId}
  {result : FlowResult} {marks before : Marks}

namespace Matches

theorem mono (h : Matches o met u w) (hg : o.Grows met o' met') : Matches o' met' u w := by
  obtain ⟨ids, hway, hsub⟩ := h.way
  exact ⟨h.vertex, h.depth, ids, hg.way hway hsub, fun _ hx => hg.met (hsub hx)⟩

theorem reaches_eq (h : Matches o met u w) (f : Reachability) : f.reaches u = f.follows w := by
  unfold reaches follows
  cases f.maxDepth with
  | none => rfl
  | some limit => exact congrArg (fun n => decide (n < limit)) h.depth

theorem enter (h : Matches o met u w) (hnew : id ∉ met) (v : Value) :
    Matches (o.enter id u.vertex v) (id :: met) ⟨id, u.depth + 1⟩ ⟨id, v :: w.trail⟩ := by
  obtain ⟨ids, hway, hsub⟩ := h.way
  refine ⟨rfl, ?_, id :: ids, hway.entered fun hm => hnew (hsub hm), List.cons_subset_cons _ hsub⟩
  have hpos := hway.length_pos
  show u.depth + 1 = w.trail.length + 1 - 1
  rw [h.depth, Waiting.depth]
  omega

/-- The path that is retraced is the one that the trail has. -/
theorem path_enter (h : Matches o met u w) (hnew : id ∉ met) (v : Value) :
    (o.enter id u.vertex v).path id = (v :: w.trail).reverse := by
  obtain ⟨ids, hway, hsub⟩ := h.way
  exact (hway.entered fun hm => hnew (hsub hm)).path_eq

end Matches

/-- A visit and an inspection of a vertex have come to the same. -/
structure Inspected (o : Origins) (met : List VertexId) (id : VertexId)
    (x : Option Due × Origins × FlowResult) (y : Option Waiting × FlowResult) : Prop where
  next : Option.Rel (Matches x.2.1 (id :: met)) x.1 y.1
  grows : o.Grows met x.2.1 (id :: met)
  result : x.2.2 = y.2

theorem inspect_bind {β : Type} {k : Option Due × Origins × FlowResult → QueryM β}
    {k' : Option Waiting × FlowResult → QueryM β} (hu : Matches o met u w) (hnew : id ∉ met)
    (hk : ∀ x y, Inspected o met id x y → k x = k' y) :
    inspect a sink barrier start u id o result >>= k =
      visit a sink barrier start w.trail id result >>= k' := by
  have hclosed : k (none, o, result) = k' (none, result) := hk _ _ ⟨.none, .meet .., rfl⟩
  have hentered : ∀ v r, k (some ⟨id, u.depth + 1⟩, o.enter id u.vertex v, r) =
      k' (some ⟨id, v :: w.trail⟩, r) := fun v r =>
    hk _ _ ⟨.some (hu.enter hnew v), .enter hnew, rfl⟩
  unfold inspect visit
  rw [bind_assoc, bind_assoc]
  refine bind_congr fun found => ?_
  cases found with
  | none =>
    rw [pure_bind, pure_bind]
    exact hclosed
  | some v =>
    dsimp only
    rw [bind_assoc, bind_assoc]
    refine bind_congr fun blocked => ?_
    cases blocked with
    | true =>
      rw [if_pos rfl, if_pos rfl, pure_bind, pure_bind]
      exact hclosed
    | false =>
      rw [if_neg Bool.false_ne_true, if_neg Bool.false_ne_true, bind_assoc, bind_assoc,
        hu.path_enter hnew]
      refine bind_congr fun reached => ?_
      cases reached with
      | false => exact hentered v result
      | true =>
        rw [if_pos rfl, if_pos rfl, bind_assoc, bind_assoc]
        refine bind_congr fun r => ?_
        rw [pure_bind, pure_bind]
        exact hentered v r

/-- The same vertices have been met, and what is due is what waits. -/
structure Survey.Even (r : Survey) (r' : Round) : Prop where
  marks : r.marks = r'.marks
  due : List.Forall₂ (Matches r.origins r.marks.ids) r.due r'.waiting
  result : r.result = r'.result

theorem survey_bind {β : Type} {k : Survey.Grown before → QueryM β} {k' : Grown before → QueryM β}
    {es : List Edge} {r : Survey.Grown before} {r' : Grown before}
    (hu : Matches r.1.origins r.1.marks.ids u w) (hr : r.1.Even r'.1)
    (hk : ∀ s s', s.1.Even s'.1 → r.1.origins.Grows r.1.marks.ids s.1.origins s.1.marks.ids → k s = k' s') :
    survey a sink barrier start u before es r >>= k =
      follow a sink barrier start w.trail before es r' >>= k' := by
  induction es generalizing r r' with
  | nil =>
    rw [survey, follow, pure_bind, pure_bind]
    exact hk r r' hr (.refl ..)
  | cons e es ih =>
    rw [survey]
    split
    · next hid =>
      rw [follow_cons_of_none (hr.marks ▸ hid)]
      exact ih hu hr hk
    · next marks hid =>
      obtain ⟨hnew, hids⟩ := Marks.ids_of_add? hid
      rw [follow_cons_of_some (hr.marks ▸ hid), bind_assoc, bind_assoc, ← hr.result]
      refine inspect_bind hu hnew fun x y hxy => ?_
      obtain ⟨next, origins, result⟩ := x
      obtain ⟨next', result'⟩ := y
      obtain ⟨hnext, hgrows, hresult⟩ := hxy
      rw [← hids] at hnext hgrows
      have hdue : List.Forall₂ (Matches origins marks.ids) r.1.due r'.1.waiting :=
        hr.due.imp fun _ _ hm => hm.mono hgrows
      cases hnext with
      | none =>
        refine ih (hu.mono hgrows) ⟨rfl, ?_, hresult⟩ fun s s' hs hg => hk s s' hs (hgrows.trans hg)
        show List.Forall₂ _ r.1.due (r'.1.waiting ++ [])
        rwa [List.append_nil]
      | some hm =>
        exact ih (hu.mono hgrows) ⟨rfl, List.rel_append hdue (.cons hm .nil), hresult⟩
          fun s s' hs hg => hk s s' hs (hgrows.trans hg)

theorem surveys_eq (hu : List.Forall₂ (Matches o marks.ids) us ws) :
    f.surveys a sink barrier start marks o result us = f.rounds a sink barrier start marks result ws := by
  induction marks, result, ws using rounds.induct f generalizing o us with
  | case1 marks result =>
    cases hu
    rw [surveys, rounds]
  | case2 marks result w ws hf ih =>
    obtain ⟨u, us, hfirst, hus, rfl⟩ := List.forall₂_cons_right_iff.1 hu
    rw [rounds_cons_of_follows hf, surveys, if_pos ((hfirst.reaches_eq f).trans hf), hfirst.vertex]
    refine bind_congr fun es => ?_
    refine survey_bind hfirst ⟨rfl, .nil, rfl⟩ fun s s' hs hg => ?_
    have hdue := List.rel_append (hus.imp fun _ _ hm => hm.mono hg) hs.due
    show f.surveys a sink barrier start s.1.marks s.1.origins s.1.result (us ++ s.1.due) = _
    rw [hs.marks] at hdue ⊢
    rw [hs.result]
    exact ih s'.1 s'.2 hdue
  | case3 marks result w ws hf ih =>
    obtain ⟨u, us, hfirst, hus, rfl⟩ := List.forall₂_cons_right_iff.1 hu
    rw [rounds_cons_of_not_follows hf, surveys, if_neg (hfirst.reaches_eq f ▸ hf)]
    exact ih hus

theorem retracing_eq (f : Reachability) (a : App) : f.retracing a = f.algorithm a := by
  funext v source sink barrier result
  unfold retracing algorithm
  refine bind_congr fun id => ?_
  exact surveys_eq (.cons ⟨rfl, rfl, [id], way_start id v, List.Subset.refl _⟩ .nil)

end Reachability

end CodeGraph
