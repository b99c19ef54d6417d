import CodeGraph.Proofs.BoundTrees
import CodeGraph.Proofs.FlowRows
import CodeGraph.Proofs.OrderOfUse
import CodeGraph.Proofs.Rounds

/-!
# Traces of searches

Whatever the registry holds and the columns contain, a `Trace` tells which vertices have been looked at on
the way of a search from one world to another, and what was seen. On the way bindings are added and none is
changed, and only the store can make it end early, by refusing a request. Where the context is faithful and
the columns tell of vertices, what is seen of a vertex depends on the vertex alone (`Search.Ready.trace`).
-/

namespace CodeGraph

def App.Refuses (a : App) (e : Error) : Request → Prop
  | .page .. => False
  | .vertex id => a.store.vertex id = .error e
  | .edges id label => a.store.outEdges id label = .error e

/-- The last request that was made has been refused with this error. -/
def App.Refused (a : App) (e : Error) (w : World) : Prop :=
  ∃ r, w.requests.back? = some r ∧ a.Refuses e r

theorem App.refused_push {a : App} {e : Error} {r : Request} (h : a.Refuses e r) (w : World) :
    a.Refused e { w with requests := w.requests.push r } :=
  ⟨r, Array.back?_push, h⟩

/-- The store refuses no request. -/
structure App.Serves (a : App) : Prop where
  vertex : ∀ id, ∃ v, a.store.vertex id = .ok v
  outEdges : ∀ id label, ∃ es, a.store.outEdges id label = .ok es

theorem App.Serves.not_refused {a : App} (h : a.Serves) {e : Error} {w : World} : ¬ a.Refused e w := by
  rintro ⟨r, -, hr⟩
  cases r with
  | page => exact hr
  | vertex id =>
    obtain ⟨v, hv⟩ := h.vertex id
    cases hv.symm.trans hr
  | edges id label =>
    obtain ⟨es, hes⟩ := h.outEdges id label
    cases hes.symm.trans hr

theorem App.Serves.wpE_never {α : Type} {a : App} (h : a.Serves) {m : QueryM α} {Q : α → World → Prop}
    {w : World} (hm : wpE m Q (fun e w' => a.Refused e w') w) : wpE m Q Never w :=
  wpE_mono hm (fun _ _ hq => hq) fun _ _ he => h.not_refused he

/-! ### Bindings last -/

namespace Context

theorem wp_valueOf?_extends (v : Vertex) (c : Context) :
    wp (valueOf? (.vertex v)) (fun _ c' => c.bindings.Extends c'.bindings) c := by
  unfold valueOf? valueOf
  rw [wp_bind, wp_run, wpE_bind]
  exact wpE_mono (wp_run.1 (wp_lookup_later (.vertex v) c)) (fun _ _ h => h.bindings) fun _ _ h => h.bindings

end Context

namespace Reachability

variable {a : App} {label : Option String} {sink barrier : Column} {start : Value} {trail : List Value}
  {id : VertexId} {al : FlowAliases} {result : FlowResult} {xs : List Finding} {w w₁ w₂ : World}

theorem wpE_report (h : result.Lists al xs) (s : Sight) :
    wpE (report start trail id result s) (fun x w' => w' = w ∧ x.1 = s.next id trail ∧
      x.2.Lists al (xs ++ s.findings start trail)) Never w := by
  have hnone : result.Lists al (xs ++ []) := by rwa [List.append_nil]
  cases s with
  | absent | blocked => exact ⟨rfl, rfl, hnone⟩
  | entered v reached =>
    cases reached with
    | false => exact ⟨rfl, rfl, hnone⟩
    | true =>
      show wpE (result.emit _ >>= _) _ _ _
      rw [wpE_bind]
      exact wpE_mono (h.wpE_emit _) (fun result' w' he => ⟨he.1, rfl, he.2⟩) fun _ _ he => he

theorem wpE_look (w : World) :
    wpE (look a sink barrier id) (fun _ w' => w.graph.bindings.Extends w'.graph.bindings)
      (fun e w' => a.Refused e w') w := by
  have hmembers : ∀ (v : Value) (w₁ : World), w.graph.bindings.Extends w₁.graph.bindings →
      wpE (do
        if ← World.member barrier (.value v) then return Sight.blocked v
        else return Sight.entered v (← World.member sink (.value v)) : QueryM Sight)
        (fun _ w' => w.graph.bindings.Extends w'.graph.bindings) (fun e w' => a.Refused e w') w₁ := by
    intro v w₁ he
    rw [wpE_bind, wpE_member]
    refine wp_mono (Context.looks_onlyUses.contains barrier (.value v) w₁.graph) fun yes c₂ h₂ => ?_
    have he₂ : w.graph.bindings.Extends c₂.bindings := by rwa [h₂.bindings]
    cases yes with
    | true => exact he₂
    | false =>
      rw [if_neg Bool.false_ne_true, wpE_bind, wpE_member]
      refine wp_mono (Context.looks_onlyUses.contains sink (.value v) c₂) fun yes c₃ h₃ => ?_
      show w.graph.bindings.Extends c₃.bindings
      rwa [h₃.bindings]
  unfold look valueOf
  rw [wpE_bind, wpE_bind, wpE_isRegistered]
  unfold Registry.contains
  cases hp : w.graph.registry.peek? id with
  | some r =>
    rw [Option.isSome_some, if_pos rfl, wpE_bind, wpE_resolving]
    refine wpE_of_never (Context.wpE_valueOf_id hp) fun v c' hv => ?_
    refine hmembers v _ ?_
    show w.graph.bindings.Extends c'.bindings
    rw [hv.2.bindings]
    exact fun _ _ h => h
  | none =>
    rw [Option.isSome_none, if_neg Bool.false_ne_true, wpE_bind, wpE_vertex]
    cases hv : a.store.vertex id with
    | error e => exact App.refused_push (r := .vertex id) hv w
    | ok found =>
      cases found with
      | none => exact fun _ _ h => h
      | some v =>
        show wpE (World.valueOf? (.vertex v)) _ _ _
        rw [wpE_valueOf?]
        refine wp_mono (Context.wp_valueOf?_extends v _) fun found c' he => ?_
        cases found with
        | none => exact he
        | some value => exact hmembers value _ he

/-! ### The way of a search -/

/-- The way from a world to another on which edges under the label have been asked for, and these
vertices have been looked at, with what was seen of them. -/
inductive Trace (a : App) (label : Option String) (sink barrier : Column) (w : World) :
    List (VertexId × Sight) → World → Prop where
  | start : Trace a label sink barrier w [] w
  | asked {seen : List (VertexId × Sight)} {w₁ w₂ : World} {id : VertexId} {es : List Edge} :
    Trace a label sink barrier w seen w₁ → (World.outEdges a id label).run.run w₁ = (.ok es, w₂) →
    Trace a label sink barrier w seen w₂
  | looked {seen : List (VertexId × Sight)} {w₁ w₂ : World} {id : VertexId} {s : Sight} :
    Trace a label sink barrier w seen w₁ → (look a sink barrier id).run.run w₁ = (.ok s, w₂) →
    Trace a label sink barrier w (seen ++ [(id, s)]) w₂

variable {seen : List (VertexId × Sight)} {o : VertexId → Sight}

theorem Trace.extends (h : Trace a label sink barrier w seen w₁) :
    w.graph.bindings.Extends w₁.graph.bindings := by
  induction h with
  | start => exact fun _ _ h => h
  | @asked _ w₁ w₂ id es _ hrun ih =>
    have hkeep : wpE (World.outEdges a id label)
        (fun _ w' => w₁.graph.bindings.Extends w'.graph.bindings) (fun _ _ => True) w₁ := by
      rw [wpE_outEdges]
      cases a.store.outEdges id label with
      | ok => exact fun _ _ h => h
      | error => trivial
    exact fun r x hx => (wpE_of_run hrun).1 hkeep r x (ih r x hx)
  | looked _ hrun ih => exact fun r x hx => (wpE_of_run hrun).1 (wpE_look _) r x (ih r x hx)

/-- What the vertices come to that have been looked at is what was seen of them. -/
def Agrees (o : VertexId → Sight) (seen : List (VertexId × Sight)) : Prop := ∀ x ∈ seen, o x.1 = x.2

/-- The values that were seen belong to the vertices that were looked at. -/
def Carried (b : Bindings) (seen : List (VertexId × Sight)) : Prop :=
  ∀ x ∈ seen, ∀ v, x.2.value? = some v → b.vertex? v = some x.1

theorem Agrees.of_prefix {seen' : List (VertexId × Sight)} (h : Agrees o seen') (hp : seen <+: seen') :
    Agrees o seen := fun x hx => h x (hp.subset hx)

theorem exists_agrees (hn : (seen.map (·.1)).Nodup) (s : VertexId → Sight) :
    ∃ o, Agrees o seen ∧ ∀ id, (id, o id) ∈ seen ∨ o id = s id := by
  refine ⟨fun id => (seen.lookup id).getD (s id), fun x hx => ?_, fun id => ?_⟩
  · dsimp only
    rw [lookup_of_mem hn hx, Option.getD_some]
  · dsimp only
    cases hs : seen.lookup id with
    | none => exact Or.inr rfl
    | some y =>
      obtain ⟨front, back, rfl, -⟩ := List.lookup_eq_some_iff.1 hs
      exact Or.inl (List.mem_append_right _ (List.mem_cons_self ..))

end Reachability

/-! ### Where the context is faithful -/

namespace Search
variable {x : Search} {w w' : World} {label : Option String} {id : VertexId}
  {seen : List (VertexId × Reachability.Sight)} {s : Reachability.Sight}

theorem Sees.mono {b b' : Bindings} (h : x.Sees b id s) (he : b.Extends b') : x.Sees b' id s := by
  unfold Sees at h ⊢
  cases hr : x.catalog.read x.language id with
  | none =>
    rw [hr] at h
    exact h
  | some r =>
    rw [hr] at h
    obtain ⟨v, hv, hs⟩ := h
    refine ⟨v, ?_, hs⟩
    rw [he.view_eq (by rw [hv]; exact (Catalog.read_eq_some hr).2.bound), hv]

theorem Sees.vertex?_eq {b : Bindings} (h : x.Sees b id s) {v : Value} (hv : s.value? = some v) :
    b.vertex? v = some id := by
  unfold Sees at h
  cases hr : x.catalog.read x.language id with
  | none =>
    rw [hr] at h
    subst h
    cases hv
  | some r =>
    rw [hr] at h
    obtain ⟨u, hu, rfl⟩ := h
    obtain ⟨rfl, howned⟩ := Catalog.read_eq_some hr
    have heq : u = v := by
      cases hb : x.blocks r <;> rw [hb] at hv <;> exact Option.some.inj hv
    rw [← heq]
    exact (howned.owns hu).vertex?

/-- What has been seen of each vertex is what it stands for, and the values belong to the vertices. -/
theorem Ready.trace (h : x.Ready w)
    (ht : Reachability.Trace x.app label x.sink x.barrier w seen w') :
    x.Ready w' ∧ ∀ y ∈ seen, x.Sees w'.graph.bindings y.1 y.2 := by
  induction ht with
  | start => exact ⟨h, by simp⟩
  | @asked seen w₁ w₂ id es _ hrun ih =>
    have hkeep : wpE (World.outEdges x.app id label) (fun _ w' => w'.graph = w₁.graph)
        (fun _ _ => True) w₁ := by
      rw [wpE_outEdges]
      cases x.app.store.outEdges id label <;> trivial
    have hgraph := (wpE_of_run hrun).1 hkeep
    obtain ⟨hready, hseen⟩ := ih
    rw [hgraph]
    exact ⟨⟨hgraph ▸ hready.faithful, hgraph ▸ hready.language⟩, hseen⟩
  | @looked seen w₁ w₂ id s _ hrun ih =>
    obtain ⟨hready, hseen⟩ := ih
    obtain ⟨hm, hs⟩ := (wpE_of_run hrun).1 (hready.wpE_look id)
    refine ⟨hm.ready, List.forall_mem_append.2 ⟨fun y hy => ?_, List.forall_mem_singleton.2 hs⟩⟩
    exact (hseen y hy).mono hm.grows.bindings

theorem Ready.carried (h : x.Ready w)
    (ht : Reachability.Trace x.app label x.sink x.barrier w seen w') :
    Reachability.Carried w'.graph.bindings seen :=
  fun y hy _ hv => ((h.trace ht).2 y hy).vertex?_eq hv

end Search

end CodeGraph
