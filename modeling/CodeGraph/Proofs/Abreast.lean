import CodeGraph.Proofs.EmptyColumn
import CodeGraph.Proofs.Lockstep
import CodeGraph.Proofs.OrderOfUse

/-!
# Searches past a barrier that rejects all

A search with a barrier that accepts no value (`Column.Rejects`) goes along with the search without a
barrier, if asking the barrier makes no difference to what happens next (`Reachability.Calm`). It makes
none if it changes nothing (`Column.Idle`), or if nothing is forgotten, or if all that is registered is
what its vertex stands for: a value that has just been looked up then belongs to the entry that was used
last, and asking for its node uses that entry again (`Context.Latest.unmoved`).
-/

namespace CodeGraph

namespace Column

/-- The column accepts no value. -/
def Rejects (col : Column) : Prop := ∀ v c, ((col.contains (.value v)).run c).1 = false

/-- Asking the column about a value changes nothing. -/
def Idle (col : Column) : Prop := ∀ v c, ((col.contains (.value v)).run c).2 = c

end Column

/-! ### Looking up and asking -/

namespace Context
variable {α : Type} {free : Prop} {c c' : Context} {k : Catalog}

/-- The same context twice, or contexts that forget nothing and differ at most in the order of use. -/
structure Abreast (free : Prop) (c c' : Context) : Prop where
  alike : c.Alike c'
  same : free ∨ c' = c
  room : free → c.registry.capacity = none

def abreast (free : Prop) : Course Context Context where
  Step _ q := q.1.Abreast free q.2
  trans _ h := h
  stay h := h

theorem Steady.wp₂_abreast {m : StateM Context α} (h : Steady m) {p : Context × Context}
    (hp : (abreast free).Step p p) : wp₂ (abreast free) m m (fun x y _ => x = y) p := by
  by_cases hf : free
  · obtain ⟨⟨ha, hn⟩, heq⟩ := h p ⟨hp.alike, hp.room hf⟩
    exact ⟨⟨ha, Or.inl hf, fun _ => hn⟩, heq⟩
  · obtain ⟨c, c'⟩ := p
    obtain rfl : c' = c := hp.same.resolve_left hf
    exact ⟨⟨.refl _, Or.inr rfl, fun h => absurd h hf⟩, rfl⟩

theorem Steady.wpE₂_abreast {m : Resolving α} (h : Steady m.run) {p : Context × Context}
    (hp : (abreast free).Step p p) : wpE₂ (abreast free) m m (fun x y _ => x = y) p :=
  wp₂_mono (h.wp₂_abreast hp) fun _ _ _ _ heq => agree_eq_iff.2 heq

/-- Asking the column about the value changes nothing, or it is free to change the order of use. -/
def Unmoved (free : Prop) (col : Column) (v : Value) (c : Context) : Prop :=
  free ∨ ((col.contains (.value v)).run c).2 = c

end Context

namespace Reachability
variable {a : App} {free : Prop} {p : World × World}

theorem wpE₂_valueOf_abreast (hp : (Context.abreast free).onGraph.Step p p) (id : VertexId) :
    wpE₂ (Context.abreast free).onGraph (valueOf a id) (valueOf a id) (fun o o' _ => o = o') p := by
  unfold valueOf
  have hreg : wpE₂ (Context.abreast free).onGraph (World.isRegistered id) (World.isRegistered id)
      (fun yes yes' q => yes = yes') p := by
    refine ⟨hp, ?_⟩
    show Registry.contains _ _ = Registry.contains _ _
    unfold Registry.contains
    rw [hp.alike.peek?]
  refine wpE₂_bind hreg fun yes yes' q hq hy => ?_
  subst hy
  have hq := (Context.abreast free).onGraph.stay hq
  cases yes with
  | true =>
    refine wpE₂_bind (wpE₂_resolving ((Context.steady_valueOf (.id id)).wpE₂_abreast hq))
      fun v v' r hr hv => ?_
    subst hv
    exact wpE₂_pure ((Context.abreast free).onGraph.stay hr) rfl
  | false =>
    refine wpE₂_bind (wpE₂_request hq (.vertex id) rfl) fun o o' r hr ho => ?_
    subst ho
    have hr := (Context.abreast free).onGraph.stay hr
    cases o with
    | none => exact wpE₂_pure hr rfl
    | some v =>
      exact wpE₂_lift (wp₂_onGraph ((Context.steady_valueOf? (.vertex v)).wp₂_abreast hr))

/-! ### The two runs -/

variable {col : Column} {G : Context → Prop} {n : String}

/-- In contexts of a kind that the search keeps to, the column may be asked about any value that has
just been looked up. -/
structure Calm (a : App) (col : Column) (free : Prop) (G : Context → Prop) : Prop where
  alike : ∀ {c c' : Context}, G c → c.Alike c' → G c'
  looked : ∀ (w : World) (id : VertexId), G w.graph → wp (valueOf a id).run (fun x w' =>
    G w'.graph ∧ ∀ v, x = .ok (some v) → Context.Unmoved free col v w'.graph) w

/-- Two runs abreast, the second of which keeps to contexts of a kind. -/
def beside (free : Prop) (G : Context → Prop) : Course World World :=
  ((Context.abreast free).keeping G).onGraph

theorem wpE₂_emit (hp : (beside free G).Step p p) {al : FlowAliases} {r r' : FlowResult}
    (hr : r.Widened al n r') (x : Finding) :
    wpE₂ (beside free G) (r.emit x) (r'.emit x) (fun s s' _ => s.Widened al n s') p := by
  obtain ⟨u, u', hu, hu', hw⟩ := hr.exists_addRow p.1.graph.bindings x
  have hbindings : p.2.graph.bindings = p.1.graph.bindings := hp.1.alike.bindings
  unfold FlowResult.emit
  refine wpE₂_bind (wpE₂_lift (wp₂_bindings hp)) fun b b' q _ hb => ?_
  obtain ⟨rfl, rfl, rfl⟩ := hb
  rw [hbindings, hu, hu']
  exact wpE₂_pure hp hw

namespace Calm
variable (h : Calm a col free G)
include h

theorem wp₂_steady {α : Type} {m : StateM Context α} (hs : Context.Steady m) (hu : Context.OnlyUses m)
    (hp : (beside free G).Step p p) :
    wp₂ (beside free G) (World.onGraph m) (World.onGraph m) (fun x y _ => x = y) p :=
  wp₂_mono (wp₂_onGraph (wp₂_keeping (Q := fun _ _ => True) (hs.wp₂_abreast hp.1)
    ⟨h.alike hp.2 (hu _), trivial⟩)) fun _ _ _ _ hxy => hxy.1

theorem wpE₂_steady {α : Type} {m : Resolving α} (hs : Context.Steady m.run)
    (hu : Context.OnlyUses m.run) (hp : (beside free G).Step p p) :
    wpE₂ (beside free G) (World.resolving m) (World.resolving m) (fun x y _ => x = y) p :=
  wp₂_mono (h.wp₂_steady hs hu hp) fun _ _ _ _ hxy => agree_eq_iff.2 hxy

theorem wpE₂_valueOf (hp : (beside free G).Step p p) (id : VertexId) :
    wpE₂ (beside free G) (valueOf a id) (valueOf a id)
      (fun o o' q => Option.Rel (fun v v' => v = v' ∧ Context.Unmoved free col v' q.2.graph) o o') p := by
  obtain ⟨hq, hsame⟩ := wpE₂_valueOf_abreast (a := a) hp.1 id
  obtain ⟨hG, hasked⟩ := h.looked p.2 id hp.2
  refine ⟨⟨hq, hG⟩, ?_⟩
  dsimp only at hsame hasked
  rw [agree_eq_iff] at hsame
  rw [hsame]
  generalize ((valueOf a id).run.run p.2).1 = x at hasked ⊢
  cases x with
  | error e => rfl
  | ok o =>
    cases o with
    | none => exact .none
    | some v => exact .some ⟨rfl, hasked v rfl⟩

theorem wpE₂_barrier (hr : col.Rejects) (hp : (beside free G).Step p p) {v : Value}
    (hv : Context.Unmoved free col v p.2.graph) :
    wpE₂ (beside free G) (World.member Flow.noBarrier (.value v)) (World.member col (.value v))
      (fun yes yes' q => yes = yes' ∧ Context.Unmoved free col v q.2.graph) p := by
  have hu := Context.looks_onlyUses.contains col (.value v) p.2.graph
  obtain ⟨⟨ha, hsame, hroom⟩, hG⟩ := hp
  have hstill : free ∨ ((col.contains (.value v)).run p.2.graph).2 = p.2.graph := hv
  have hasked : wp₂ ((Context.abreast free).keeping G) (Flow.noBarrier.contains (.value v))
      (col.contains (.value v)) (fun yes yes' q => yes = yes' ∧ Context.Unmoved free col v q.2)
      (p.1.graph, p.2.graph) := by
    refine ⟨⟨⟨ha.trans hu, ?_, hroom⟩, h.alike hG hu⟩, (hr v p.2.graph).symm, ?_⟩
    · exact hstill.elim Or.inl fun hs => hsame.imp_right hs.trans
    · exact hstill.elim Or.inl fun hs => Or.inr (by rw [hs]; exact hs)
  exact wpE₂_lift (wp₂_onGraph hasked)

def lockstep (hr : col.Rejects) (p : World × World) (sink : Column) (al : FlowAliases) (n : String) :
    Lockstep where
  app := a
  app' := a
  sink := sink
  sink' := sink
  barrier := Flow.noBarrier
  barrier' := col
  course := beside free G
  origin := p
  Pair _ v v' := v = v'
  Met q v v' := v = v' ∧ Context.Unmoved free col v' q.2.graph
  Result _ r r' := r.Widened al n r'
  pair_of_met hv := hv.1
  pair_step _ hv := hv
  result_step _ hr := hr
  vertexOf hq hv := by
    subst hv
    exact h.wpE₂_steady (Context.steady_vertexOf _) (Context.onlyUses_vertexOf _) ((beside free G).stay hq)
  outEdges hq id label := wpE₂_request ((beside free G).stay hq) (.edges id label) rfl
  valueOf hq id := h.wpE₂_valueOf ((beside free G).stay hq) id
  barrier_member hq hv := by
    obtain ⟨rfl, hv⟩ := hv
    exact wpE₂_mono (h.wpE₂_barrier hr ((beside free G).stay hq) hv) fun _ _ _ _ hy => ⟨hy.1, rfl, hy.2⟩
  sink_member hq hv := by
    obtain ⟨rfl, -⟩ := hv
    exact wpE₂_lift (h.wp₂_steady (Context.looks_steady.contains sink _)
      (Context.looks_onlyUses.contains sink _) ((beside free G).stay hq))
  emit {_ _ _ x x'} hq hr hs hk hpath := by
    obtain ⟨source, sink, path⟩ := x
    obtain ⟨source', sink', path'⟩ := x'
    obtain rfl : source = source' := hs
    obtain rfl : sink = sink' := hk
    obtain rfl : path = path' := List.forall₂_eq_eq_eq ▸ hpath
    exact wpE₂_emit ((beside free G).stay hq) hr _

theorem wpE₂_apply (hr : col.Rejects) (hp : (beside free G).Step p p) (f : Reachability)
    {source sink name : String} (hn : n ∉ [source, sink, name]) (t₁ t₂ : Table) {t₃ : Table}
    (h₃ : t₃.onlyColumn = .ok col) :
    wpE₂ (beside free G) (Flow.apply ⟨⟨source, sink, none, name⟩, f.algorithm a⟩ t₁ t₂ none)
      (Flow.apply ⟨⟨source, sink, some n, name⟩, f.algorithm a⟩ t₁ t₂ (some t₃))
      (fun t t' _ => t.headers = [source, sink, name] ∧ t.Widened n 2 t') p := by
  unfold Flow.apply
  refine wpE₂_bind (wpE₂_except hp (agree_eq_iff.2 rfl)) fun c c' q _ hc => ?_
  obtain ⟨rfl, rfl⟩ := hc
  refine wpE₂_bind (wpE₂_except hp (agree_eq_iff.2 rfl)) fun snk snk' q' _ hc => ?_
  obtain ⟨rfl, rfl⟩ := hc
  dsimp only
  rw [h₃]
  refine wpE₂_bind (R := fun none some r => r = q' ∧ none = Flow.noBarrier ∧ some = col)
    ⟨hp, rfl, rfl, rfl⟩ fun none some r _ hbarrier => ?_
  obtain ⟨rfl, rfl, rfl⟩ := hbarrier
  refine wpE₂_bind (wpE₂_lift (wp₂_bindings hp)) fun b b' q _ hb => ?_
  obtain ⟨rfl, rfl, rfl⟩ := hb
  rw [show q.2.graph.bindings = q.1.graph.bindings from hp.1.alike.bindings]
  refine wpE₂_bind (wpE₂_except hp (FlowResult.agree_new_widened q.1.graph.bindings hn))
    fun r r' q' _ hw => ?_
  obtain ⟨rfl, hw⟩ := hw
  refine wpE₂_bind (wpE₂_except hp (agree_eq_iff.2 rfl)) fun cells cells' q _ hc => ?_
  obtain ⟨rfl, rfl⟩ := hc
  have hsame : List.Forall₂ (Cell.Paired Eq) cells.toList cells.toList :=
    List.forall₂_same.2 fun cell _ => .refl (fun _ => rfl) cell
  refine wpE₂_bind ((h.lockstep hr q snk ⟨source, sink, none, name⟩ n).wpE₂_foldlM hp f _ _ c c
    hsame hw) fun s s' r hq hs => ?_
  exact wpE₂_pure ((beside free G).stay hq) ⟨hs.headers, hs.table⟩

end Calm

/-! ### Where the barrier may be asked -/

theorem calm_of_idle (h : col.Idle) : Calm a col False fun _ => True where
  alike _ _ := trivial
  looked _ _ _ := ⟨trivial, fun v _ => Or.inr (h v _)⟩

theorem calm_of_free : Calm a col True fun _ => True where
  alike _ _ := trivial
  looked _ _ _ := ⟨trivial, fun _ _ => Or.inl trivial⟩

end Reachability

namespace Context
variable {k : Catalog} {c : Context} {id : VertexId} {r : Registration}

/-- The value is that of the entry that was used last. -/
def Latest (c : Context) (v : Value) : Prop := ∃ id r, c.registry.Latest id r ∧ r.value = v

theorem wp_cached?_latest (c : Context) (id : VertexId) :
    wp (cached? id) (fun found c' => found = c.registry.peek? id ∧ c.Alike c' ∧
      ∀ r, found = some r → c'.Latest r.value) c := by
  have hused := wp_cached? c id
  exact ⟨hused.1, hused.2, fun r hr =>
    ⟨id, r, Registry.latest_touch? (hused.1.symm.trans hr), rfl⟩⟩

theorem finds_of_latest (h : c.Faithful k) (hr : c.registry.Latest id r) :
    ValuePredicate.Finds (· = c) r.node r.value := by
  rintro t ht c' rfl
  have howns := (h.owns hr.peek?).below ht
  have hnode : c'.nodeAt? id = some r.node := by
    unfold nodeAt?
    rw [hr.peek?]
    rfl
  -- the entry was used last already
  have hsame : (c'.registry.touch? id).2 = c'.registry := congrArg Prod.snd hr
  refine wp_mono (wp_nodeOf?_bound howns.vertex?) fun found c'' hc => ?_
  rw [hnode, hsame] at hc
  exact hc

theorem Latest.unmoved {v : Value} (hv : c.Latest v) (h : c.Faithful k) (col : Column) :
    Unmoved False col v c := by
  obtain ⟨id, r, hr, rfl⟩ := hv
  cases col with
  | data | any => exact Or.inr rfl
  | predicate n accepts =>
    exact Or.inr (accepts.wp_test_of_finds (I := (· = c)) (fun _ h => congrArg bindings h)
      (Or.inr (finds_of_latest h hr)) rfl).2

theorem wpE_resolve_latest (h : c.Faithful k) {v : Vertex} (hv : k.find v.id = some v) :
    wpE (resolve v .store) (fun kept c' => c'.Faithful k ∧ c'.Latest kept.value)
      (fun _ c' => c' = c) c := by
  rw [resolve_store, wpE_bind]
  refine wpE_mono (wpE_resolve_bypass h.fresh h.unbuilt v) (fun r c' hr => ?_) fun _ _ he => he.1
  obtain ⟨hg, hreg, -, hnode, hfaith⟩ := hr
  have hid : r.id = v.id := congrArg Vertex.id hnode
  have hf : c'.Faithful k := h.of_entries hg fun id x hx => by rwa [hreg] at hx
  have hkept := wp_register hf hfaith (by rw [hid, hnode]; exact hv)
  exact ⟨hkept.2.1, r.id, _, Registry.latest_register hf.room, rfl⟩

theorem wp_valueOf?_latest (h : c.Faithful k) {v : Vertex} (hv : k.find v.id = some v) :
    wp (valueOf? (.vertex v)) (fun found c' => c'.Faithful k ∧ ∀ x, found = some x → c'.Latest x) c := by
  unfold valueOf? valueOf lookup
  rw [wp_bind, wp_run, wpE_bind, wpE_bind, wpE_lift]
  refine wp_mono (wp_cached?_latest c v.id) fun found c' hc => ?_
  obtain ⟨-, ha, hlatest⟩ := hc
  have hf := h.alike ha
  cases found with
  | some r => exact ⟨hf, fun x hx => Option.some.inj hx ▸ hlatest r rfl⟩
  | none =>
    refine wpE_mono (wpE_resolve_latest hf hv) (fun r c'' hr => ?_) fun _ c'' he => ?_
    · exact ⟨hr.1, fun x hx => Option.some.inj hx ▸ hr.2⟩
    · exact ⟨he ▸ hf, fun _ hx => nomatch hx⟩

end Context

namespace Reachability
variable {a : App} {col : Column} {k : Catalog} {w : World}

theorem wpE_valueOf_latest (ha : ∀ id v, a.store.vertex id = .ok (some v) → k.find id = some v)
    (h : w.graph.Faithful k) (id : VertexId) :
    wpE (valueOf a id) (fun found w' => w'.graph.Faithful k ∧ ∀ x, found = some x → w'.graph.Latest x)
      (fun _ w' => w'.graph.Faithful k) w := by
  unfold valueOf
  rw [wpE_bind, wpE_isRegistered]
  cases hreg : w.graph.registry.contains id with
  | true =>
    rw [if_pos rfl, wpE_bind, wpE_resolving]
    unfold Context.valueOf Context.lookup Context.known
    rw [wpE_bind, wpE_bind, wpE_lift]
    refine wp_mono (Context.wp_cached?_latest w.graph id) fun found c' hc => ?_
    obtain ⟨hfound, ha, hlatest⟩ := hc
    obtain ⟨r, hr⟩ := Option.isSome_iff_exists.1 hreg
    rw [hr] at hfound
    subst hfound
    exact ⟨h.alike ha, fun x hx => Option.some.inj hx ▸ hlatest r rfl⟩
  | false =>
    rw [if_neg Bool.false_ne_true, wpE_bind, wpE_vertex]
    cases hfind : a.store.vertex id with
    | error e => exact h
    | ok found =>
      cases found with
      | none => exact ⟨h, fun _ hx => nomatch hx⟩
      | some v =>
        have hv := ha id v hfind
        obtain rfl : v.id = id := k.id_of_find id v hv
        exact Context.wp_valueOf?_latest h hv

theorem calm_of_faithful (ha : ∀ id v, a.store.vertex id = .ok (some v) → k.find id = some v) :
    Calm a col False (·.Faithful k) where
  alike h ha := h.alike ha
  looked w id h := by
    rw [wp_run]
    refine wpE_mono (wpE_valueOf_latest ha h id) (fun found w' hw => ?_) fun _ _ hw => ?_
    · exact ⟨hw.1, fun v hv => (hw.2 v (Except.ok.inj hv)).unmoved hw.1 col⟩
    · exact ⟨hw, fun _ hx => nomatch hx⟩

end Reachability

end CodeGraph
