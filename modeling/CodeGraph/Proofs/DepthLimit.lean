import CodeGraph.Proofs.ShortestPaths

/-!
# Searches with a depth limit

The trails that wait in a search never become shorter, so a search with a depth limit does what one with a
higher limit or with none does until all that waits is as long as the limit lets a trail be. There the one
ends, while what the other still finds goes on from trails of that length. So a higher limit only adds
findings behind the others, with paths beyond the lower limit (`Reachability.limit_cuts`).
-/

namespace CodeGraph

namespace Reachability

def upTo (f : Reachability) (limit : Nat) : Reachability := { f with maxDepth := some limit }

variable {f : Reachability} {a : App} {sink barrier : Column} {start : Value} {trail : List Value}
  {al : FlowAliases} {xs : List Finding} {result : FlowResult} {marks before : Marks} {u : Waiting}
  {us new : List Waiting} {w : World} {n d : Nat}

theorem Sight.length_of_next {id : VertexId} {s : Sight} (h : s.next id trail = some u) :
    u.trail.length = trail.length + 1 := by
  cases s with
  | absent | blocked => cases h
  | entered v reached =>
    cases h
    rfl

theorem Sight.length_of_mem_findings {s : Sight} {x : Finding} (h : x ∈ s.findings start trail) :
    x.path.length = trail.length + 1 := by
  cases s with
  | absent | blocked => cases h
  | entered v reached =>
    cases reached with
    | false => cases h
    | true =>
      rw [List.mem_singleton.1 h]
      exact List.length_reverse

theorem wpE_follow_longer {es : List Edge} {r : Grown before} (h : r.1.result.Lists al xs) :
    wpE (follow a sink barrier start trail before es r)
      (fun r' _ => ∃ more new, r'.1.result.Lists al (xs ++ more) ∧ r'.1.waiting = r.1.waiting ++ new ∧
        (∀ x ∈ more, x.path.length = trail.length + 1) ∧ ∀ u ∈ new, u.trail.length = trail.length + 1)
      (fun e w' => a.Refused e w') w := by
  induction es generalizing r xs w with
  | nil =>
    exact ⟨[], [], by rwa [List.append_nil], (List.append_nil _).symm, List.forall_mem_nil _,
      List.forall_mem_nil _⟩
  | cons e es ih =>
    cases hid : r.1.marks.add? e.head with
    | none =>
      rw [follow_cons_of_none hid]
      exact ih h
    | some marks =>
      rw [follow_cons_of_some hid, visit_eq, wpE_bind, wpE_bind]
      refine wpE_mono (wpE_look w) (fun s w₁ _ => ?_) fun _ _ he => he
      refine wpE_of_never (wpE_report h s) fun x w₂ hx => ?_
      obtain ⟨-, hnext, hresult⟩ := hx
      refine wpE_mono (ih (r := r.met hid x) hresult) (fun r' w' hr => ?_) fun _ _ he => he
      obtain ⟨more, new, hlists, hwaiting, hmore, hnew⟩ := hr
      refine ⟨s.findings start trail ++ more, x.1.toList ++ new, ?_, ?_, ?_, ?_⟩
      · rwa [← List.append_assoc]
      · rw [hwaiting, ← List.append_assoc]
        rfl
      · exact List.forall_mem_append.2 ⟨fun y hy => Sight.length_of_mem_findings hy, hmore⟩
      · refine List.forall_mem_append.2 ⟨fun u hu => ?_, hnew⟩
        exact Sight.length_of_next (hnext.symm.trans (Option.mem_toList.1 hu))

/-- From trails that are longer than this, only longer paths are found. -/
theorem wpE_rounds_longer (h : result.Lists al xs) (hu : ∀ u ∈ us, n < u.trail.length) :
    wpE (f.rounds a sink barrier start marks result us)
      (fun result' _ => ∃ more, result'.Lists al (xs ++ more) ∧ ∀ x ∈ more, n + 1 < x.path.length)
      (fun e w' => a.Refused e w') w := by
  induction marks, result, us using rounds.induct f generalizing w xs with
  | case1 marks result =>
    rw [rounds]
    exact ⟨[], by rwa [List.append_nil], List.forall_mem_nil _⟩
  | case2 marks result u us hf ih =>
    obtain ⟨hfirst, hrest⟩ := List.forall_mem_cons.1 hu
    rw [rounds_cons_of_follows hf, wpE_bind]
    refine wpE_mono (wpE_outEdges_heads ..) (fun es w₁ _ => ?_) fun _ _ he => he
    rw [wpE_bind]
    refine wpE_mono (wpE_follow_longer (r := Grown.first marks result) h) (fun r w₂ hr => ?_)
      fun _ _ he => he
    obtain ⟨more, new, hlists, hwaiting, hmore, hnew⟩ := hr
    have hlong : ∀ v ∈ us ++ r.1.waiting, n < v.trail.length := by
      rw [hwaiting]
      refine List.forall_mem_append.2 ⟨hrest, fun v hv => ?_⟩
      rw [hnew v hv]
      exact Nat.lt_succ_of_lt hfirst
    refine wpE_mono (ih r.1 r.2 hlists hlong) (fun result' w' hr => ?_) fun _ _ he => he
    obtain ⟨more', hlists', hmore'⟩ := hr
    refine ⟨more ++ more', by rwa [← List.append_assoc], ?_⟩
    refine List.forall_mem_append.2 ⟨fun x hx => ?_, hmore'⟩
    rw [hmore x hx]
    exact Nat.succ_lt_succ hfirst
  | case3 marks result u us hf ih =>
    rw [rounds_cons_of_not_follows hf]
    exact ih h (List.forall_mem_cons.1 hu).2

/-! ### What waits -/

/-- The trails that wait are not empty, do not become shorter and differ by one at most. -/
structure Queued (us : List Waiting) : Prop where
  pos : ∀ u ∈ us, 0 < u.trail.length
  sorted : us.Pairwise fun u v => u.trail.length ≤ v.trail.length
  near : ∀ u ∈ us, ∀ v ∈ us, v.trail.length ≤ u.trail.length + 1

theorem queued_single (id : VertexId) (v : Value) : Queued [⟨id, [v]⟩] where
  pos := by simp
  sorted := List.pairwise_singleton ..
  near := by simp

theorem Queued.advance (h : Queued (u :: us)) (hnew : ∀ v ∈ new, v.trail.length = u.trail.length + 1) :
    Queued (us ++ new) := by
  obtain ⟨hle, hsorted⟩ := List.pairwise_cons.1 h.sorted
  have hbound : ∀ v ∈ us ++ new, u.trail.length ≤ v.trail.length ∧ v.trail.length ≤ u.trail.length + 1 := by
    intro v hv
    rcases List.mem_append.1 hv with hv | hv
    · exact ⟨hle v hv, h.near u (List.mem_cons_self ..) v (List.mem_cons_of_mem _ hv)⟩
    · rw [hnew v hv]
      omega
  refine ⟨fun v hv => ?_, List.pairwise_append.2 ⟨hsorted, ?_, fun v hv x hx => ?_⟩, fun v hv x hx => ?_⟩
  · have hpos := h.pos u (List.mem_cons_self ..)
    have hv := hbound v hv
    omega
  · refine List.pairwise_of_forall_mem_list fun v hv x hx => ?_
    exact Nat.le_of_eq ((hnew v hv).trans (hnew x hx).symm)
  · rw [hnew x hx]
    exact (hbound v (List.mem_append_left _ hv)).2
  · have hv := hbound v hv
    have hx := hbound x hx
    omega

theorem follows_upTo_iff : (f.upTo d).follows u = true ↔ u.trail.length - 1 < d :=
  decide_eq_true_iff

theorem follows_of_upTo (hd : f.Within d) (h : (f.upTo d).follows u = true) : f.follows u = true := by
  rw [follows_upTo_iff] at h
  unfold follows
  cases hlimit : f.maxDepth with
  | none => rfl
  | some limit => exact decide_eq_true (Nat.lt_of_lt_of_le h (hd limit hlimit))

theorem Queued.long (h : Queued (u :: us)) (hf : ¬ (f.upTo d).follows u = true) :
    ∀ v ∈ u :: us, d < v.trail.length := by
  have hpos := h.pos u (List.mem_cons_self ..)
  rw [follows_upTo_iff] at hf
  have hfirst : d < u.trail.length := by omega
  refine List.forall_mem_cons.2 ⟨hfirst, fun v hv => ?_⟩
  exact Nat.lt_of_lt_of_le hfirst ((List.pairwise_cons.1 h.sorted).1 v hv)

/-- A search ends where all that waits is as long as the limit lets a trail be. -/
theorem rounds_upTo_of_long (h : ∀ u ∈ us, d < u.trail.length) :
    (f.upTo d).rounds a sink barrier start marks result us = pure result := by
  induction us with
  | nil => rw [rounds]
  | cons u us ih =>
    obtain ⟨hfirst, hrest⟩ := List.forall_mem_cons.1 h
    have hf : ¬ (f.upTo d).follows u = true := by
      rw [follows_upTo_iff]
      omega
    rw [rounds_cons_of_not_follows hf, ih hrest]

/-- Two searches do the same until the one with the lower limit ends, and there all that waits is as long as
the limit lets a trail be. -/
def Common (f : Reachability) (a : App) (sink barrier : Column) (start : Value) (d : Nat) (al : FlowAliases)
    (xs : List Finding) (marks : Marks) (result : FlowResult) (us : List Waiting) (w : World) : Prop :=
  ∃ found marks' result' us' w', result'.Lists al (xs ++ found) ∧
    (∀ x ∈ found, x.path.length ≤ d + 1) ∧ (∀ u ∈ us', d < u.trail.length) ∧
    ((f.upTo d).rounds a sink barrier start marks result us).run.run w = (.ok result', w') ∧
    (f.rounds a sink barrier start marks result us).run.run w =
      (f.rounds a sink barrier start marks' result' us').run.run w'

theorem common_of_long (h : result.Lists al xs) (hu : ∀ u ∈ us, d < u.trail.length) :
    Common f a sink barrier start d al xs marks result us w := by
  refine ⟨[], marks, result, us, w, by rwa [List.append_nil], List.forall_mem_nil _, hu, ?_, rfl⟩
  rw [rounds_upTo_of_long hu]
  rfl

/-- From what waits in a search on, both searches do the same. -/
theorem Queued.common (ha : a.Serves) (hd : f.Within d) (h : result.Lists al xs) (hq : Queued us) :
    Common f a sink barrier start d al xs marks result us w := by
  induction marks, result, us using rounds.induct (f.upTo d) generalizing w xs with
  | case1 marks result => exact common_of_long h (List.forall_mem_nil _)
  | case2 marks result u us hf ih =>
    obtain ⟨es, w₁, hedges, -⟩ := exists_of_wpE (ha.wpE_never (wpE_outEdges_heads a f.label u.vertex w))
    have hlonger : wpE (follow a sink barrier start u.trail marks es (Grown.first marks result)) _ _ w₁ :=
      wpE_follow_longer h
    obtain ⟨r, w₂, hfollow, more, new, hlists, hwaiting, hmore, hnew⟩ := exists_of_wpE (ha.wpE_never hlonger)
    have hnext : Queued (us ++ r.1.waiting) := by
      rw [hwaiting]
      exact hq.advance hnew
    obtain ⟨found, marks', result', us', w', hlists', hfound, hlong, hlow, hhigh⟩ :=
      ih r.1 r.2 (w := w₂) hlists hnext
    refine ⟨more ++ found, marks', result', us', w', by rwa [← List.append_assoc], ?_, hlong, ?_, ?_⟩
    · have hshort := follows_upTo_iff.1 hf
      refine List.forall_mem_append.2 ⟨fun x hx => ?_, hfound⟩
      have hx := hmore x hx
      omega
    · rw [rounds_cons_of_follows hf]
      exact (run_bind_of_run _ hedges).trans ((run_bind_of_run _ hfollow).trans hlow)
    · rw [rounds_cons_of_follows (follows_of_upTo hd hf)]
      exact (run_bind_of_run _ hedges).trans ((run_bind_of_run _ hfollow).trans hhigh)
  | case3 marks result u us hf ih => exact common_of_long h (hq.long hf)

theorem run_algorithm_of_bound {s : VertexId} (h : w.graph.bindings.vertex? start = some s) (source : Column) :
    (f.algorithm a start source sink barrier result).run.run w =
      (f.rounds a sink barrier start (.single s) result [⟨s, [start]⟩]).run.run w := by
  have hs : wpE (World.resolving (Context.vertexOf start)) (fun id w' => id = s ∧ w' = w) Never w := by
    unfold Context.vertexOf
    rw [wpE_resolving, wpE_bind, wpE_get, h]
    exact ⟨rfl, rfl⟩
  obtain ⟨_, _, hrun, rfl, rfl⟩ := exists_of_wpE hs
  exact run_bind_of_run _ hrun

theorem run_algorithm_of_unbound (h : w.graph.bindings.vertex? start = none) (source : Column) :
    (f.algorithm a start source sink barrier result).run.run w =
      (.error (.unboundValue start.identifier), w) := by
  have hs : wpE (f.algorithm a start source sink barrier result) (fun _ _ => False)
      (fun e w' => e = .unboundValue start.identifier ∧ w' = w) w := by
    unfold algorithm Context.vertexOf
    rw [wpE_bind, wpE_resolving, wpE_bind, wpE_get, h]
    exact ⟨rfl, rfl⟩
  obtain ⟨outcome, w', hrun, hpost⟩ := exists_outcome_of_wpE hs
  cases outcome with
  | ok => exact hpost.elim
  | error e =>
    obtain ⟨rfl, rfl⟩ := hpost
    exact hrun

/-- On a store that refuses no request, a search with a higher limit or with none has the findings of the
search with the lower limit before all others, and these are those with paths of no more edges than the
limit lets. From a value that belongs to no vertex both fail alike. -/
theorem limit_cuts (ha : a.Serves) (hd : f.Within d) (hr : result.Lists al xs) (start : Value)
    (source sink barrier : Column) (w : World) :
    match w.graph.bindings.vertex? start with
    | none =>
        ((f.upTo d).algorithm a start source sink barrier result).run.run w =
            (.error (.unboundValue start.identifier), w) ∧
        (f.algorithm a start source sink barrier result).run.run w =
            (.error (.unboundValue start.identifier), w)
    | some _ => ∃ low high w₁ w₂ found more,
        ((f.upTo d).algorithm a start source sink barrier result).run.run w = (.ok low, w₁) ∧
        (f.algorithm a start source sink barrier result).run.run w = (.ok high, w₂) ∧
        low.Lists al (xs ++ found) ∧ high.Lists al (xs ++ (found ++ more)) ∧
        (∀ x ∈ found, x.path.length ≤ d + 1) ∧ ∀ x ∈ more, d + 1 < x.path.length := by
  cases hs : w.graph.bindings.vertex? start with
  | none => exact ⟨run_algorithm_of_unbound hs source, run_algorithm_of_unbound hs source⟩
  | some s =>
    have hcommon : Common f a sink barrier start d al xs (.single s) result _ w :=
      (queued_single s start).common ha hd hr
    obtain ⟨found, marks, low, us, w₁, hlow, hfound, hlong, hrun, hrest⟩ := hcommon
    have hlonger : wpE (f.rounds a sink barrier start marks low us) _ _ w₁ := wpE_rounds_longer hlow hlong
    obtain ⟨high, w₂, hrun', more, hhigh, hmore⟩ := exists_of_wpE (ha.wpE_never hlonger)
    refine ⟨low, high, w₁, w₂, found, more, (run_algorithm_of_bound hs source).trans hrun,
      (run_algorithm_of_bound hs source).trans (hrest.trans hrun'),
      hlow, ?_, hfound, hmore⟩
    rwa [← List.append_assoc]

/-- Of three files in a circle the last is beyond a limit of one. -/
theorem limit_cuts_circularFiles :
    ∃ st w result low high w₁ w₂ found more, InMemoryStore.Holds CircularFiles.dump st ∧
      w.graph.bindings.vertex? Inclusions.firstFile = some ⟨1⟩ ∧
      FlowResult.Lists ⟨"a", "b", none, "d"⟩ result [] ∧
      (Reachability.algorithm ⟨some "include", some 1⟩ ⟨.default, st.toStore⟩ Inclusions.firstFile
        Flow.noBarrier (.predicate "b" .any) Flow.noBarrier result).run.run w = (.ok low, w₁) ∧
      (Reachability.algorithm ⟨some "include", none⟩ ⟨.default, st.toStore⟩ Inclusions.firstFile
        Flow.noBarrier (.predicate "b" .any) Flow.noBarrier result).run.run w = (.ok high, w₂) ∧
      low.Lists ⟨"a", "b", none, "d"⟩ found ∧ high.Lists ⟨"a", "b", none, "d"⟩ (found ++ more) ∧
      found.map (fun x => x.path.map w₂.graph.bindings.vertex?) = [[some ⟨1⟩, some ⟨2⟩]] ∧
      more.map (fun x => x.path.map w₂.graph.bindings.vertex?) = [[some ⟨1⟩, some ⟨2⟩, some ⟨3⟩]] := by
  obtain ⟨st, hst⟩ := InMemoryStore.exists_holds (d := CircularFiles.dump) (by decide) (by decide)
  obtain ⟨result, hr⟩ := Inclusions.exists_result
  have hs := Inclusions.vertex?_firstFile ⟨.default, st.toStore⟩
  obtain ⟨listed, w', all, hrun, hlists, hpaths⟩ := CircularFiles.exists_found hst .any hr
  have hcut := limit_cuts (f := ⟨some "include", none⟩) (d := 1) (Inclusions.serves st) nofun hr
    Inclusions.firstFile Flow.noBarrier (.predicate "b" .any) Flow.noBarrier
    (Inclusions.resolved ⟨.default, st.toStore⟩)
  rw [hs] at hcut
  obtain ⟨low, high, w₁, w₂, found, more, hlow, hhigh, hfound, hall, hshort, hlong⟩ := hcut
  cases hrun.symm.trans hhigh
  obtain rfl : found ++ more = all := hlists.unique hall
  refine ⟨st, _, result, low, listed, w₁, w', found, more, hst, hs, hr, hlow, hhigh, hfound, hall, ?_⟩
  have hways : (found ++ more).map (fun x => x.path.map w'.graph.bindings.vertex?) =
      [[some ⟨1⟩, some ⟨2⟩], [some ⟨1⟩, some ⟨2⟩, some ⟨3⟩]] := hpaths
  -- the path to the second file is within the limit, and the path to the third is not
  have hlength {x : Finding} {ids} (h : x.path.map w'.graph.bindings.vertex? = ids) :
      x.path.length = ids.length := by rw [← h, List.length_map]
  rcases found with _ | ⟨x, _ | ⟨y, found⟩⟩
  · obtain ⟨y, rest, rfl, hy, -⟩ := List.map_eq_cons_iff.1 hways
    exact absurd (hlong y (List.mem_cons_self ..)) (by rw [hlength hy]; decide)
  · exact ⟨congrArg (·.take 1) hways, congrArg (·.drop 1) hways⟩
  · have hy := (List.cons.inj (List.cons.inj hways).2).1
    exact absurd (hshort y (List.mem_cons_of_mem _ (List.mem_cons_self ..))) (by rw [hlength hy]; decide)

end Reachability

end CodeGraph
