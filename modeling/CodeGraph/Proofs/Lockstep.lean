import CodeGraph.Proofs.PairedTables
import CodeGraph.Proofs.Sights

/-!
# Searches in lockstep

A `Lockstep` is two settings in which the same search may run, with what the search asks of its
setting answered alike in both: values of vertices, their membership in the barrier and the sink,
edges, and the recording of a finding. Then the two runs meet the same vertices in the same order
along paired values, and their results stay related (`Lockstep.wpE₂_algorithm`, `wpE₂_foldlM`).

The runs start from `origin`, and the setting is asked only in worlds that they reach from there. A
value that has just been looked up may be known better than one that was met long ago; `Met` is what
relates the former and `Pair` what relates any.
-/

namespace CodeGraph

/-- Two settings in which a search is answered alike. -/
structure Lockstep where
  app : App
  app' : App
  sink : Column
  sink' : Column
  barrier : Column
  barrier' : Column
  course : Course World World
  origin : World × World
  /-- The values that correspond to each other. -/
  Pair : World × World → Value → Value → Prop
  /-- The values that have just been looked up. -/
  Met : World × World → Value → Value → Prop
  /-- The results that correspond to each other. -/
  Result : World × World → FlowResult → FlowResult → Prop
  pair_of_met : ∀ {p v v'}, Met p v v' → Pair p v v'
  pair_step : ∀ {p q v v'}, course.Step p q → Pair p v v' → Pair q v v'
  result_step : ∀ {p q r r'}, course.Step p q → Result p r r' → Result q r r'
  vertexOf : ∀ {p v v'}, course.Step origin p → Pair p v v' →
    wpE₂ course (World.resolving (Context.vertexOf v)) (World.resolving (Context.vertexOf v'))
      (fun id id' _ => id = id') p
  outEdges : ∀ {p}, course.Step origin p → ∀ id label,
    wpE₂ course (World.outEdges app id label) (World.outEdges app' id label)
      (fun es es' _ => es = es') p
  valueOf : ∀ {p}, course.Step origin p → ∀ id,
    wpE₂ course (Reachability.valueOf app id) (Reachability.valueOf app' id)
      (fun o o' q => Option.Rel (Met q) o o') p
  barrier_member : ∀ {p v v'}, course.Step origin p → Met p v v' →
    wpE₂ course (World.member barrier (.value v)) (World.member barrier' (.value v'))
      (fun yes yes' q => yes = yes' ∧ Met q v v') p
  sink_member : ∀ {p v v'}, course.Step origin p → Met p v v' →
    wpE₂ course (World.member sink (.value v)) (World.member sink' (.value v'))
      (fun yes yes' _ => yes = yes') p
  emit : ∀ {p r r'} {x x' : Finding}, course.Step origin p → Result p r r' → Pair p x.source x'.source →
    Pair p x.sink x'.sink → List.Forall₂ (Pair p) x.path x'.path →
    wpE₂ course (r.emit x) (r'.emit x') (fun s s' q => Result q s s') p

namespace Lockstep
variable {l : Lockstep} {p q : World × World} {start start' : Value} {trail trail' : List Value}
  {r r' : FlowResult}

/-- One vertex waits in both runs. -/
structure Waits (l : Lockstep) (p : World × World) (u u' : Reachability.Waiting) : Prop where
  vertex : u.vertex = u'.vertex
  trail : List.Forall₂ (l.Pair p) u.trail u'.trail

theorem Waits.step {u u' : Reachability.Waiting} (h : l.Waits p u u') (hq : l.course.Step p q) :
    l.Waits q u u' := ⟨h.vertex, h.trail.imp fun _ _ => l.pair_step hq⟩

theorem Waits.follows_eq {u u' : Reachability.Waiting} (h : l.Waits p u u') (f : Reachability) :
    f.follows u = f.follows u' := by
  unfold Reachability.follows Reachability.Waiting.depth
  rw [h.trail.length_eq]

/-- A visit comes to the same: both runs enter the vertex or both do not. -/
structure Visited (l : Lockstep) (p : World × World)
    (x x' : Option Reachability.Waiting × FlowResult) : Prop where
  next : Option.Rel (l.Waits p) x.1 x'.1
  result : l.Result p x.2 x'.2

theorem wpE₂_report {v v' : Value} (hp : l.course.Step l.origin p) (hs : l.Pair p start start')
    (ht : List.Forall₂ (l.Pair p) (v :: trail) (v' :: trail')) (hr : l.Result p r r') (yes : Bool)
    (id : VertexId) :
    wpE₂ l.course (do
        let result ← if yes then r.emit ⟨start, v, (v :: trail).reverse⟩ else pure r
        return (some (⟨id, v :: trail⟩ : Reachability.Waiting), result))
      (do
        let result ← if yes then r'.emit ⟨start', v', (v' :: trail').reverse⟩ else pure r'
        return (some (⟨id, v' :: trail'⟩ : Reachability.Waiting), result))
      (fun x x' q => l.Visited q x x') p := by
  cases yes with
  | false => exact wpE₂_pure (l.course.stay hp) ⟨.some ⟨rfl, ht⟩, hr⟩
  | true =>
    refine wpE₂_bind (l.emit hp hr hs (List.forall₂_cons.1 ht).1 (List.rel_reverse ht))
      fun s s' q hq hr => ?_
    exact wpE₂_pure (l.course.stay hq) ⟨.some ⟨rfl, ht.imp fun _ _ => l.pair_step hq⟩, hr⟩

theorem wpE₂_visit (hp : l.course.Step l.origin p) (hs : l.Pair p start start')
    (ht : List.Forall₂ (l.Pair p) trail trail') (hr : l.Result p r r') (id : VertexId) :
    wpE₂ l.course (Reachability.visit l.app l.sink l.barrier start trail id r)
      (Reachability.visit l.app' l.sink' l.barrier' start' trail' id r')
      (fun x x' q => l.Visited q x x') p := by
  unfold Reachability.visit
  refine wpE₂_bind (l.valueOf hp id) fun o o' p₁ h₁ ho => ?_
  cases ho with
  | none => exact wpE₂_pure (l.course.stay h₁) ⟨.none, l.result_step h₁ hr⟩
  | @some v v' hv =>
    refine wpE₂_bind (l.barrier_member (l.course.trans hp h₁) hv) fun yes yes' p₂ h₂ hy => ?_
    obtain ⟨rfl, hv⟩ := hy
    have h₂ := l.course.trans h₁ h₂
    cases yes with
    | true => exact wpE₂_pure (l.course.stay h₂) ⟨.none, l.result_step h₂ hr⟩
    | false =>
      refine wpE₂_bind (l.sink_member (l.course.trans hp h₂) hv) fun yes yes' p₃ h₃ hy => ?_
      subst hy
      have hall := l.course.trans h₂ h₃
      refine wpE₂_report (l.course.trans hp hall) (l.pair_step hall hs) (.cons ?_ ?_)
        (l.result_step hall hr) yes id
      · exact l.pair_step h₃ (l.pair_of_met hv)
      · exact ht.imp fun _ _ => l.pair_step hall

/-- The same vertices have been met in both runs, and the same wait. -/
structure Even (l : Lockstep) (p : World × World) (r r' : Reachability.Round) : Prop where
  marks : r.marks = r'.marks
  waiting : List.Forall₂ (l.Waits p) r.waiting r'.waiting
  result : l.Result p r.result r'.result

theorem wpE₂_follow (hp : l.course.Step l.origin p) (hs : l.Pair p start start')
    (ht : List.Forall₂ (l.Pair p) trail trail') {before : Marks} (es : List Edge)
    {r r' : Reachability.Grown before} (hr : l.Even p r.1 r'.1) :
    wpE₂ l.course (Reachability.follow l.app l.sink l.barrier start trail before es r)
      (Reachability.follow l.app' l.sink' l.barrier' start' trail' before es r')
      (fun s s' q => l.Even q s.1 s'.1) p := by
  induction es generalizing p r r' with
  | nil => exact wpE₂_pure (l.course.stay hp) hr
  | cons e es ih =>
    cases hid : r.1.marks.add? e.head with
    | none =>
      rw [Reachability.follow_cons_of_none hid, Reachability.follow_cons_of_none (hr.marks ▸ hid)]
      exact ih hp hs ht hr
    | some marks =>
      rw [Reachability.follow_cons_of_some hid, Reachability.follow_cons_of_some (hr.marks ▸ hid)]
      refine wpE₂_bind (l.wpE₂_visit hp hs ht hr.result e.head) fun x x' q hq hx => ?_
      refine ih (l.course.trans hp hq) (l.pair_step hq hs) (ht.imp fun _ _ => l.pair_step hq) ⟨rfl, ?_,
        hx.result⟩
      refine List.rel_append (hr.waiting.imp fun _ _ hw => hw.step hq) ?_
      have hnext := hx.next
      generalize x.1 = o, x'.1 = o' at hnext ⊢
      cases hnext with
      | none => exact .nil
      | some hw => exact .cons hw .nil

theorem wpE₂_rounds (hp : l.course.Step l.origin p) (hs : l.Pair p start start') (f : Reachability)
    (marks : Marks) (hr : l.Result p r r') {us us' : List Reachability.Waiting}
    (hu : List.Forall₂ (l.Waits p) us us') :
    wpE₂ l.course (f.rounds l.app l.sink l.barrier start marks r us)
      (f.rounds l.app' l.sink' l.barrier' start' marks r' us') (fun s s' q => l.Result q s s') p := by
  -- the marks are the same in both runs, so the rounds of one go on as those of the other
  induction marks, r, us using Reachability.rounds.induct f generalizing r' us' p with
  | case1 marks r =>
    cases hu
    rw [Reachability.rounds, Reachability.rounds]
    exact wpE₂_pure (l.course.stay hp) hr
  | case2 marks r u us hf ih =>
    obtain ⟨u', us', hfirst, hus, rfl⟩ := List.forall₂_cons_left_iff.1 hu
    have hf' : f.follows u' = true := hfirst.follows_eq f ▸ hf
    rw [Reachability.rounds_cons_of_follows hf, Reachability.rounds_cons_of_follows hf', hfirst.vertex]
    refine wpE₂_bind (l.outEdges hp u'.vertex f.label) fun es es' p₁ h₁ he => ?_
    subst he
    have hround : l.Even p₁ (Reachability.Grown.first marks r).1 (Reachability.Grown.first marks r').1 :=
      ⟨rfl, .nil, l.result_step h₁ hr⟩
    refine wpE₂_bind (wpE₂_follow (l.course.trans hp h₁) (l.pair_step h₁ hs) (hfirst.step h₁).trail es
      hround) fun s s' p₂ h₂ he => ?_
    have hall := l.course.trans h₁ h₂
    rw [← he.marks]
    exact ih s.1 s.2 (l.course.trans hp hall) (l.pair_step hall hs) he.result
      (List.rel_append (hus.imp fun _ _ hw => hw.step hall) he.waiting)
  | case3 marks r u us hf ih =>
    obtain ⟨u', us', hfirst, hus, rfl⟩ := List.forall₂_cons_left_iff.1 hu
    have hf' : ¬ f.follows u' = true := hfirst.follows_eq f ▸ hf
    rw [Reachability.rounds_cons_of_not_follows hf, Reachability.rounds_cons_of_not_follows hf']
    exact ih hp hs hr hus

/-- From paired values the two searches come to related results. -/
theorem wpE₂_algorithm (hp : l.course.Step l.origin p) (hs : l.Pair p start start') (f : Reachability)
    (hr : l.Result p r r') (source source' : Column) :
    wpE₂ l.course (f.algorithm l.app start source l.sink l.barrier r)
      (f.algorithm l.app' start' source' l.sink' l.barrier' r') (fun s s' q => l.Result q s s') p := by
  unfold Reachability.algorithm
  refine wpE₂_bind (l.vertexOf hp hs) fun id id' q hq hid => ?_
  subst hid
  have hs := l.pair_step hq hs
  exact l.wpE₂_rounds (l.course.trans hp hq) hs f _ (l.result_step hq hr)
    (.cons ⟨rfl, .cons hs .nil⟩ .nil)

theorem wpE₂_foldlM (hp : l.course.Step l.origin p) (f : Reachability) (al al' : FlowAliases)
    (source source' : Column) {cells cells' : List (Cell Ref)}
    (hc : List.Forall₂ (Cell.Paired (l.Pair p)) cells cells') (hr : l.Result p r r') :
    wpE₂ l.course
      (cells.foldlM (Flow.addFindings ⟨al, f.algorithm l.app⟩ source l.sink l.barrier) r)
      (cells'.foldlM (Flow.addFindings ⟨al', f.algorithm l.app'⟩ source' l.sink' l.barrier') r')
      (fun s s' q => l.Result q s s') p := by
  refine CodeGraph.wpE₂_foldlM (V := fun c c' q => c.Paired (l.Pair q) c')
    (fun c c' q r hq h => h.mono fun _ _ => l.pair_step hq) (fun s s' c c' q hq h hr => ?_)
    (l.course.stay hp) hc hr
  unfold Flow.addFindings
  have hv := h.value?
  generalize c.value? = o, c'.value? = o' at hv ⊢
  cases hv with
  | none => exact wpE₂_pure (l.course.stay hq) hr
  | some hv => exact l.wpE₂_algorithm (l.course.trans hp hq) hv f hr source source'

end Lockstep

end CodeGraph
