import CodeGraph.Proofs.Counterparts
import CodeGraph.Proofs.Scan

/-!
# Filters and flows of two runs

On one ground a filter makes paired tables of paired tables, if its predicate asks for no node or
nothing is forgotten, and so does a reachability flow of stores that answer alike: a value that its
search looks up is registered when the barrier and the sink are asked about it, however small the
registry is.
-/

namespace CodeGraph

def FilterPredicate.Blind : FilterPredicate → Prop
  | value p => p.Blind
  | row _ | flow _ => True

namespace Ground
variable {g : Ground} {p : Context × Context} {t t' : Table} {r r' : Row Ref} {name : String}
  {accepts : FilterPredicate}

/-! ### Filters -/

theorem wp₂_test (ha : accepts.Blind ∨ g.lasting) (hp : g.course.Step p p)
    (hr : Row.Paired (g.Twins p) r r') :
    wp₂ g.course (accepts.test name r) (accepts.test name r') (fun yes yes' _ => yes = yes') p := by
  have hlookup := hr.lookup name
  cases accepts with
  | value a =>
    unfold FilterPredicate.test
    generalize r.lookup name = x, r'.lookup name = y at hlookup ⊢
    cases hlookup with
    | none => exact wp₂_pure hp rfl
    | @some c c' hc =>
      have hv := hc.value?
      dsimp only [Option.bind_some]
      generalize c.value? = x, c'.value? = y at hv ⊢
      cases hv with
      | none => exact wp₂_pure hp rfl
      | some hv => exact hv.wp₂_test hp ha
  | row a => exact ⟨hp, congrArg a (hr.viewRow_eq (g.seenAlike p))⟩
  | flow a =>
    unfold FilterPredicate.test
    generalize r.lookup name = x, r'.lookup name = y at hlookup ⊢
    cases hlookup with
    | none => exact wp₂_pure hp rfl
    | @some c c' hc =>
      cases hc with
      | null | value | text => exact wp₂_pure hp rfl
      | path h =>
        have hpath := Cell.path.inj ((Cell.Paired.path h).map_eq (g.seenAlike p))
        exact ⟨hp, congrArg a hpath⟩

theorem wpE₂_keep (ha : accepts.Blind ∨ g.lasting) (hp : g.course.Step p p)
    (ht : t.Paired (g.Twins p) t') (hr : Row.Paired (g.Twins p) r r') :
    wpE₂ g.course (Filter.keep accepts name t r) (Filter.keep accepts name t' r')
      (fun u u' q => u.Paired (g.Twins q) u') p := by
  unfold Filter.keep
  refine wpE₂_bind (wpE₂_lift (wp₂_test ha hp hr)) fun yes yes' q hq hy => ?_
  subst hy
  have ht := ht.mono fun _ _ h => h.step hq
  cases yes with
  | false => exact wpE₂_pure (g.course.stay hq) ht
  | true =>
    refine wpE₂_bind (wpE₂_get (g.course.stay hq)) fun c c' q' _ h => ?_
    obtain ⟨rfl, rfl, rfl⟩ := h
    refine wpE₂_mono (wpE₂_except (g.course.stay hq)
      (ht.addRow (g.seenAlike q') (hr.mono fun _ _ h => h.step hq))) fun u u' r _ h => ?_
    obtain ⟨rfl, hu⟩ := h
    exact hu

theorem wpE₂_retain (ha : accepts.Blind ∨ g.lasting) (hp : g.course.Step p p)
    (ht : t.Paired (g.Twins p) t') :
    wpE₂ g.course (Filter.apply ⟨name, .retain accepts⟩ t) (Filter.apply ⟨name, .retain accepts⟩ t')
      (fun u u' q => u.Paired (g.Twins q) u') p := by
  unfold Filter.apply Filter.retain
  refine wpE₂_bind (R := fun u u' q => u.Paired (g.Twins q) u') ?_
    fun u u' q hq hu => wpE₂_pure (g.course.stay hq) (hu.renamed name)
  refine wpE₂_bind (wpE₂_except hp ht.rows) fun rs rs' q _ hrs => ?_
  obtain ⟨rfl, hrs⟩ := hrs
  exact wpE₂_foldlM (V := fun r r' q => Row.Paired (g.Twins q) r r')
    (fun r r' _ _ hq h => h.mono fun _ _ h => h.step hq)
    (fun u u' r r' q hq hr hu => wpE₂_keep ha (g.course.stay hq) hu hr) hp hrs ht.duplicate

/-! ### Flows -/

end Ground

structure FlowResult.Paired (V : Value → Value → Prop) (r r' : FlowResult) : Prop where
  aliases : r.aliases = r'.aliases
  table : r.table.Paired V r'.table

namespace FlowResult
variable {V V' : Value → Value → Prop} {b b' : Bindings} {r r' : FlowResult} {x x' : Finding}

theorem Paired.mono (h : r.Paired V r') (hV : ∀ v v', V v v' → V' v v') : r.Paired V' r' :=
  ⟨h.aliases, h.table.mono hV⟩

theorem agree_new (hV : SeenAlike b b' V) (a : FlowAliases) :
    Agree (FlowResult.Paired V) (new b a) (new b' a) := by
  have hdata : ∀ n, (Column.data (.new n true)).Paired V (.data (.new n true)) :=
    fun n => .data rfl .nil fun _ => rfl
  unfold new
  refine ((Table.Paired.new a.name).addColumn hV (hdata _)).bind fun t t' ht => ?_
  refine (ht.addColumn hV (hdata _)).bind fun t t' ht => ?_
  have hlast : ∀ {t t' : Table}, t.Paired V t' → Agree (FlowResult.Paired V)
      (do
        let t ← t.addColumn b (.any a.name #[])
        return ⟨a, t⟩)
      (do
        let t ← t'.addColumn b' (.any a.name #[])
        return ⟨a, t⟩) := fun ht =>
    (ht.addColumn hV (.any _ .nil)).bind fun _ _ ht => ⟨rfl, ht⟩
  cases a.barrier with
  | none => exact hlast ht
  | some n => exact (ht.addColumn hV (.any n .nil)).bind fun _ _ ht => hlast ht

theorem paired_rowOf (a : FlowAliases) (hs : V x.source x'.source) (hk : V x.sink x'.sink)
    (hp : List.Forall₂ V x.path x'.path) : Row.Paired V (rowOf a x) (rowOf a x') := by
  unfold rowOf
  refine .cons ⟨rfl, .value hs⟩ (.cons ⟨rfl, .value hk⟩ (.cons ⟨rfl, .path hp⟩ ?_))
  cases a.barrier with
  | none => exact .nil
  | some n => exact .cons ⟨rfl, .null⟩ .nil

end FlowResult

namespace Ground
variable {g : Ground} {a a' : App} {p q : World × World}

/-- Two applications whose stores serve the ground: they give the same edges and list the same
vertices, each as the catalog has it. -/
structure Serves (g : Ground) (a a' : App) : Prop where
  vertex : ∀ id, a.store.vertex id = .ok (g.catalog.find id)
  vertex' : ∀ id, a'.store.vertex id = .ok (g.catalog.find id)
  outEdges : ∀ id label, a.store.outEdges id label = a'.store.outEdges id label
  listing : Scan.served a.store a.batchSize 0 = Scan.served a'.store a'.batchSize 0
  find : ∀ v ∈ Scan.served a.store a.batchSize 0, g.catalog.find v.id = some v

def graphs (p : World × World) : Context × Context := (p.1.graph, p.2.graph)

theorem wpE₂_valueOf (ha : g.Serves a a') (hp : g.course.onGraph.Step p p) (id : VertexId) :
    wpE₂ g.course.onGraph (Reachability.valueOf a id) (Reachability.valueOf a' id)
      (fun o o' q => Option.Rel (g.Met (graphs q)) o o') p := by
  have hp₁ := hp.1.ready
  have hp₂ := hp.2.ready
  refine wpE₂_of_wpE (Reachability.wpE_valueOf hp₁.faithful ha.vertex id)
    (Reachability.wpE_valueOf hp₂.faithful ha.vertex' id) fun o w o' w' h h' => ?_
  obtain ⟨hg, hf, ho⟩ := h
  obtain ⟨hg', hf', ho'⟩ := h'
  refine ⟨⟨hp₁.moves hg hf, hp₂.moves hg' hf'⟩, ?_⟩
  rw [hp₁.language] at ho
  rw [hp₂.language] at ho'
  cases hr : g.catalog.read g.language id with
  | none =>
    rw [hr] at ho ho'
    rw [ho, ho']
    exact .none
  | some r =>
    rw [hr] at ho ho'
    obtain ⟨k, rfl, hk⟩ := ho
    obtain ⟨k', rfl, hk'⟩ := ho'
    exact .some ⟨id, k, k', hk, rfl, hk', rfl⟩

theorem wpE₂_vertexOf {p : Context × Context} {v v' : Value} (hp : g.course.Step p p)
    (h : g.Twins p v v') :
    wpE₂ g.course (Context.vertexOf v) (Context.vertexOf v') (fun id id' _ => id = id') p := by
  obtain ⟨id, r, hread, hv, hv', -⟩ := h
  have howned := (Catalog.read_eq_some hread).2
  refine wpE₂_of_wpE (Context.wpE_vertexOf (howned.owns hv)) (Context.wpE_vertexOf (howned.owns hv'))
    fun x c x' c' h h' => ?_
  obtain ⟨rfl, rfl⟩ := h
  obtain ⟨rfl, rfl⟩ := h'
  exact ⟨hp, rfl⟩

theorem wpE₂_outEdges (ha : g.Serves a a') (hp : g.course.onGraph.Step p p) (id : VertexId)
    (label : Option String) :
    wpE₂ g.course.onGraph (World.outEdges a id label) (World.outEdges a' id label)
      (fun es es' _ => es = es') p :=
  wpE₂_request hp _ (ha.outEdges id label)

theorem wpE₂_emit {r r' : FlowResult} {x x' : Finding} (hp : g.course.onGraph.Step p p)
    (hr : r.Paired (g.Twins (graphs p)) r') (hs : g.Twins (graphs p) x.source x'.source)
    (hk : g.Twins (graphs p) x.sink x'.sink)
    (hx : List.Forall₂ (g.Twins (graphs p)) x.path x'.path) :
    wpE₂ g.course.onGraph (r.emit x) (r'.emit x')
      (fun s s' q => s.Paired (g.Twins (graphs q)) s') p := by
  unfold FlowResult.emit
  refine wpE₂_bind (wpE₂_lift (wp₂_bindings hp)) fun b b' q _ h => ?_
  obtain ⟨rfl, rfl, rfl⟩ := h
  rw [← hr.aliases]
  refine wpE₂_bind (wpE₂_except hp (hr.table.addRow (g.seenAlike (graphs q))
    (FlowResult.paired_rowOf r.aliases hs hk hx))) fun t t' q _ ht => ?_
  obtain ⟨rfl, ht⟩ := ht
  exact wpE₂_pure hp ⟨rfl, ht⟩

def lockstep (ha : g.Serves a a') (p : World × World) {sink sink' barrier barrier' : Column}
    (hsink : sink.Paired (g.Twins (graphs p)) sink')
    (hbarrier : barrier.Paired (g.Twins (graphs p)) barrier') : Lockstep where
  app := a
  app' := a'
  sink := sink
  sink' := sink'
  barrier := barrier
  barrier' := barrier'
  course := g.course.onGraph
  origin := p
  Pair q := g.Twins (graphs q)
  Met q v v' := g.course.Step (graphs q) (graphs q) ∧ g.Met (graphs q) v v'
  Result q r r' := r.Paired (g.Twins (graphs q)) r'
  pair_of_met h := h.2.twins h.1
  pair_step hq h := h.step hq
  result_step hq h := h.mono fun _ _ h => h.step hq
  vertexOf hq h := wpE₂_resolving (wpE₂_vertexOf (g.course.stay hq) h)
  outEdges hq := wpE₂_outEdges ha (g.course.onGraph.stay hq)
  valueOf hq id := wpE₂_mono (wpE₂_valueOf ha (g.course.onGraph.stay hq) id) fun _ _ _ hr h => by
    cases h with
    | none => exact .none
    | some h => exact .some ⟨g.course.stay hr, h⟩
  barrier_member hq h := wpE₂_lift (wp₂_mono (wp₂_onGraph (h.2.wp₂_contains h.1
    (hbarrier.mono fun _ _ ht => ht.step hq))) fun _ _ _ hr hy => ⟨hy.1, g.course.stay hr, hy.2⟩)
  sink_member hq h := wpE₂_lift (wp₂_mono (wp₂_onGraph (h.2.wp₂_contains h.1
    (hsink.mono fun _ _ ht => ht.step hq))) fun _ _ _ _ hy => hy.1)
  emit hq := wpE₂_emit (g.course.onGraph.stay hq)

/-- A reachability flow makes paired tables of paired tables. -/
theorem wpE₂_apply (ha : g.Serves a a') (hp : g.course.onGraph.Step p p) (al : FlowAliases)
    (f : Reachability) {t₁ t₁' t₂ t₂' : Table} {t₃ t₃' : Option Table}
    (h₁ : t₁.Paired (g.Twins (graphs p)) t₁') (h₂ : t₂.Paired (g.Twins (graphs p)) t₂')
    (h₃ : Option.Rel (Table.Paired (g.Twins (graphs p))) t₃ t₃') :
    wpE₂ g.course.onGraph (Flow.apply ⟨al, f.algorithm a⟩ t₁ t₂ t₃)
      (Flow.apply ⟨al, f.algorithm a'⟩ t₁' t₂' t₃')
      (fun t t' q => t.Paired (g.Twins (graphs q)) t') p := by
  have hrest : ∀ {c c' sink sink' barrier barrier' : Column},
      c.Paired (g.Twins (graphs p)) c' → sink.Paired (g.Twins (graphs p)) sink' →
      barrier.Paired (g.Twins (graphs p)) barrier' →
      wpE₂ g.course.onGraph
        (do
          let r ← FlowResult.new (← World.bindings) al
          let r ← (← c.cells).toList.foldlM
            (Flow.addFindings ⟨al, f.algorithm a⟩ c sink barrier) r
          return r.table : QueryM Table)
        (do
          let r ← FlowResult.new (← World.bindings) al
          let r ← (← c'.cells).toList.foldlM
            (Flow.addFindings ⟨al, f.algorithm a'⟩ c' sink' barrier') r
          return r.table : QueryM Table)
        (fun t t' q => t.Paired (g.Twins (graphs q)) t') p := by
    intro c c' sink sink' barrier barrier' hc hsink hbarrier
    refine wpE₂_bind (wpE₂_lift (wp₂_bindings hp)) fun b b' q _ h => ?_
    obtain ⟨rfl, rfl, rfl⟩ := h
    refine wpE₂_bind (wpE₂_except hp (FlowResult.agree_new (g.seenAlike (graphs q)) al))
      fun r r' q' _ hr => ?_
    obtain ⟨rfl, hr⟩ := hr
    refine wpE₂_bind (wpE₂_except hp hc.cells) fun xs xs' q _ hx => ?_
    obtain ⟨rfl, hx⟩ := hx
    refine wpE₂_bind ((lockstep ha q hsink hbarrier).wpE₂_foldlM hp f al al c c' hx hr) ?_
    exact fun s s' q₃ h₃ hs => wpE₂_pure (g.course.onGraph.stay h₃) hs.table
  unfold Flow.apply
  refine wpE₂_bind (wpE₂_except hp h₁.onlyColumn) fun c c' q _ hc => ?_
  obtain ⟨rfl, hc⟩ := hc
  refine wpE₂_bind (wpE₂_except hp h₂.onlyColumn) fun sink sink' q' _ hsink => ?_
  obtain ⟨rfl, hsink⟩ := hsink
  cases h₃ with
  | none => exact hrest hc hsink (.predicate _ _)
  | some h =>
    refine wpE₂_bind (wpE₂_except hp h.onlyColumn) fun barrier barrier' q _ hbarrier => ?_
    obtain ⟨rfl, hbarrier⟩ := hbarrier
    exact hrest hc hsink hbarrier

end Ground

end CodeGraph
