import CodeGraph.Proofs.Wp

/-!
# When a vertex can be resolved

Whether a vertex can be resolved depends on the vertex alone (`Vertex.resolves`): a file can, code can
if it has a syntax tree, readable or not, and nothing else can. Resolving a vertex without keeping it
builds and binds, but registers and stages nothing (`Context.Undisturbed`), and a failure changes
nothing at all.
-/

namespace CodeGraph

/-- Whether a vertex is a file, or code with a syntax tree. -/
def Vertex.resolves (v : Vertex) : Bool :=
  if v.label = codeLabel then (v.property? "json").isSome else v.label = fileLabel

def NodeKey.vertex? (b : Bindings) : NodeKey → Option VertexId
  | .vertex v => some v.id
  | .id x => some x
  | .node n => some n.id
  | .value v => b.vertex? v

namespace Context
variable {c c' c'' : Context}

/-- `c'` is `c` but for what has been built, bound and noticed. -/
structure Undisturbed (c c' : Context) : Prop where
  language : c'.language = c.language
  registry : c'.registry = c.registry
  staged : c'.staged = c.staged

theorem Undisturbed.refl (c : Context) : c.Undisturbed c := ⟨rfl, rfl, rfl⟩

theorem Undisturbed.trans (h : c.Undisturbed c') (h' : c'.Undisturbed c'') : c.Undisturbed c'' :=
  ⟨h'.language.trans h.language, h'.registry.trans h.registry, h'.staged.trans h.staged⟩

theorem wp_buildTree_undisturbed (raw : Json) (c : Context) :
    wp (buildTree raw) (fun _ c' => c.Undisturbed c') c := by
  unfold buildTree
  cases readTree? raw <;> exact ⟨rfl, rfl, rfl⟩

theorem wpE_buildVertex_undisturbed (v : Vertex) (c : Context) :
    wpE (buildVertex v)
      (fun r c' => v.resolves = true ∧ r.node.vertex = v ∧ c.Undisturbed c')
      (fun _ c' => v.resolves = false ∧ c' = c) c := by
  unfold buildVertex Vertex.resolves
  by_cases hcode : v.label = codeLabel
  · rw [if_pos hcode, if_pos hcode]
    unfold buildCode
    cases v.property? "json" with
    | none => exact ⟨rfl, rfl⟩
    | some raw =>
      show wpE (_ >>= _) _ _ _
      rw [wpE_bind, wpE_lift]
      exact wp_mono (wp_buildTree_undisturbed raw c) fun built c' h => ⟨rfl, rfl, h⟩
  · rw [if_neg hcode, if_neg hcode]
    by_cases hfile : v.label = fileLabel
    · rw [if_pos hfile]
      exact ⟨decide_eq_true hfile, rfl, rfl, rfl, rfl⟩
    · rw [if_neg hfile]
      exact ⟨decide_eq_false hfile, rfl⟩

theorem wpE_buildVertex_vertexOf (v : Vertex) (c : Context) :
    wpE (buildVertex v) (fun _ c' => c'.bindings.vertexOf = c.bindings.vertexOf)
      (fun _ c' => c'.bindings.vertexOf = c.bindings.vertexOf) c := by
  unfold buildVertex
  by_cases hcode : v.label = codeLabel
  · rw [if_pos hcode]
    unfold buildCode
    cases v.property? "json" with
    | none => rfl
    | some raw =>
      have htree : wp (buildTree raw) (fun _ c' => c'.bindings.vertexOf = c.bindings.vertexOf) c := by
        unfold buildTree
        cases readTree? raw <;> rfl
      show wpE (_ >>= _) _ _ _
      rw [wpE_bind, wpE_lift]
      exact wp_mono htree fun _ _ h => h
  · rw [if_neg hcode]
    by_cases hfile : v.label = fileLabel
    · rw [if_pos hfile]
      rfl
    · rw [if_neg hfile]
      rfl

theorem wpE_resolve_undisturbed (v : Vertex) (c : Context) :
    wpE (resolve v .bypass)
      (fun r c' => v.resolves = true ∧ r.id = v.id ∧ c.Undisturbed c')
      (fun _ c' => v.resolves = false ∧ c' = c) c := by
  unfold resolve
  rw [wpE_bind]
  refine wpE_mono (wpE_buildVertex_undisturbed v c) (fun r c' h => ?_) fun _ _ h => h
  obtain ⟨hv, hnode, hc⟩ := h
  exact ⟨hv, congrArg Vertex.id hnode, hc.trans ⟨rfl, rfl, rfl⟩⟩

end Context

end CodeGraph
