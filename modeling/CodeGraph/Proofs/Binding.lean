import CodeGraph.Graph.Value

/-!
# Values that belong to a vertex

A value belongs to a vertex when each of its nodes is bound to it (`Bindings.Owns`). Binding is done
once for each object: `Bindings.Extends` says that what was bound is bound as before, and a value
that belongs to a vertex goes on to do so and to be seen as it was. A value of objects that nobody
has bound yet is owned after `bindAll`.
-/

namespace CodeGraph

namespace Tree
variable {ι κ : Type}

mutual

theorem preorder_map (f : ι → κ) (t : Tree ι) : (t.map f).preorder = t.preorder.map (map f) := by
  cases t with
  | node tag header cs =>
    rw [map, preorder, preorder, preorderAll_mapAll, List.map_cons, map]

theorem preorderAll_mapAll (f : ι → κ) (ts : List (Tree ι)) :
    preorderAll (mapAll f ts) = (preorderAll ts).map (map f) := by
  cases ts with
  | nil => rfl
  | cons t ts =>
    rw [mapAll, preorderAll, preorderAll, preorder_map, preorderAll_mapAll, List.map_append]

end

mutual

theorem map_congr {f g : ι → κ} (t : Tree ι) (h : ∀ u ∈ t.preorder, f u.tag = g u.tag) :
    t.map f = t.map g := by
  cases t with
  | node tag header cs =>
    rw [preorder] at h
    rw [map, map, mapAll_congr cs fun u hu => h u (List.mem_cons_of_mem _ hu)]
    exact congrArg (node · header _) (h _ (List.mem_cons_self ..))

theorem mapAll_congr {f g : ι → κ} (ts : List (Tree ι))
    (h : ∀ u ∈ preorderAll ts, f u.tag = g u.tag) : mapAll f ts = mapAll g ts := by
  cases ts with
  | nil => rfl
  | cons t ts =>
    rw [preorderAll] at h
    rw [mapAll, mapAll, map_congr t fun u hu => h u (List.mem_append_left _ hu),
      mapAll_congr ts fun u hu => h u (List.mem_append_right _ hu)]

end

theorem tag_map (f : ι → κ) (t : Tree ι) : (t.map f).tag = f t.tag := by
  cases t; rfl

theorem self_mem_preorder (t : Tree ι) : t ∈ t.preorder := by
  cases t with
  | node tag header cs => rw [preorder]; exact List.mem_cons_self ..

mutual

theorem preorder_subset {t u v : Tree ι} (hu : u ∈ t.preorder) (hv : v ∈ u.preorder) :
    v ∈ t.preorder := by
  cases t with
  | node tag header cs =>
    rw [preorder, List.mem_cons] at hu
    rcases hu with rfl | hu
    · exact hv
    · rw [preorder]; exact List.mem_cons_of_mem _ (preorderAll_subset hu hv)

theorem preorderAll_subset {ts : List (Tree ι)} {u v : Tree ι} (hu : u ∈ preorderAll ts)
    (hv : v ∈ u.preorder) : v ∈ preorderAll ts := by
  cases ts with
  | nil => simp [preorderAll] at hu
  | cons t ts =>
    rw [preorderAll, List.mem_append] at hu ⊢
    rcases hu with hu | hu
    · exact Or.inl (preorder_subset hu hv)
    · exact Or.inr (preorderAll_subset hu hv)

end

end Tree

namespace Bindings
variable {b b' b'' : Bindings} {id : VertexId} {v : Value}

/-- Every node of a value is bound to a vertex. -/
def Owns (b : Bindings) (id : VertexId) (v : Value) : Prop :=
  ∀ t ∈ v.preorder, b.vertexOf[t.tag]? = some id

/-- What is bound in `b` is bound alike in `b'`. -/
def Extends (b b' : Bindings) : Prop :=
  ∀ (r : Ref) (id : VertexId), b.vertexOf[r]? = some id → b'.vertexOf[r]? = some id

/-- The objects that are still to be built are not bound. -/
def Unbuilt (b : Bindings) : Prop := ∀ n, b.serial ≤ n → b.vertexOf[Ref.built n]? = none

theorem Extends.refl (b : Bindings) : b.Extends b := fun _ _ h => h

theorem Extends.trans (h : b.Extends b') (h' : b'.Extends b'') : b.Extends b'' :=
  fun r id hr => h' r id (h r id hr)

theorem Owns.mono (h : b.Owns id v) (he : b.Extends b') : b'.Owns id v :=
  fun t ht => he _ _ (h t ht)

theorem Owns.vertex? (h : b.Owns id v) : b.vertex? v = some id := h v v.self_mem_preorder

theorem Owns.below (h : b.Owns id v) {t : Value} (ht : t ∈ v.preorder) : b.Owns id t :=
  fun u hu => h u (Tree.preorder_subset ht hu)

theorem identity_eq_vertex_iff {r : Ref} : b.identity r = .vertex id ↔ b.vertexOf[r]? = some id := by
  unfold identity
  cases b.vertexOf[r]? <;> simp

theorem Owns.view (h : b.Owns id v) : b.view v = v.map fun _ => .vertex id :=
  v.map_congr fun t ht => identity_eq_vertex_iff.2 (h t ht)

theorem owns_iff_view : b.Owns id v ↔ ∀ u ∈ (b.view v).preorder, u.tag = .vertex id := by
  unfold Bindings.view
  rw [Tree.preorder_map]
  simp only [List.forall_mem_map, Tree.tag_map, identity_eq_vertex_iff]
  exact Iff.rfl

theorem view_preorder : (b.view v).preorder = v.preorder.map b.view := Tree.preorder_map ..

theorem Owns.view_mono (h : b.Owns id v) (he : b.Extends b') : b'.view v = b.view v := by
  rw [h.view, (h.mono he).view]

/-! ### Binding -/

theorem getElem?_bind (b : Bindings) (id : VertexId) (r r' : Ref) :
    (b.bind id r).vertexOf[r']? =
      if r = r' then (b.vertexOf[r']?).or (some id) else b.vertexOf[r']? := by
  unfold bind
  simp only [Std.HashMap.getElem?_insertIfNew, beq_iff_eq, Std.HashMap.mem_iff_isSome_getElem?]
  split
  · next h => obtain ⟨rfl, h⟩ := h; simp only [Bool.not_eq_true, Option.isSome_eq_false_iff,
      Option.isNone_iff_eq_none] at h; simp [h]
  · next h =>
    split
    · next he =>
      subst he
      simp only [true_and, Classical.not_not, Option.isSome_iff_exists] at h
      obtain ⟨x, hx⟩ := h
      simp [hx]
    · rfl

theorem getElem?_foldl_bind (id : VertexId) (ts : List Value) (b : Bindings) (r : Ref) :
    (ts.foldl (fun b t => b.bind id t.tag) b).vertexOf[r]? =
      if ∃ t ∈ ts, t.tag = r then (b.vertexOf[r]?).or (some id) else b.vertexOf[r]? := by
  induction ts generalizing b with
  | nil => simp
  | cons t ts ih =>
    rw [List.foldl_cons, ih, getElem?_bind]
    by_cases h : t.tag = r <;> by_cases h' : ∃ u ∈ ts, u.tag = r <;> simp [h, h']

theorem serial_bindAll (b : Bindings) (id : VertexId) (v : Value) :
    (b.bindAll id v).serial = b.serial := by
  unfold bindAll
  induction v.stream generalizing b with
  | nil => rfl
  | cons t ts ih => rw [List.foldl_cons, ih]; rfl

theorem getElem?_bindAll (b : Bindings) (id : VertexId) (v : Value) (r : Ref) :
    (b.bindAll id v).vertexOf[r]? =
      if ∃ t ∈ v.preorder, t.tag = r then (b.vertexOf[r]?).or (some id) else b.vertexOf[r]? := by
  unfold bindAll
  rw [getElem?_foldl_bind, Tree.stream_eq_preorder]

theorem extends_bindAll (b : Bindings) (id : VertexId) (v : Value) : b.Extends (b.bindAll id v) := by
  intro r x hr
  rw [getElem?_bindAll, hr]
  split <;> rfl

theorem owns_bindAll (h : ∀ t ∈ v.preorder, b.vertexOf[t.tag]? = none) :
    (b.bindAll id v).Owns id v := by
  intro t ht
  rw [getElem?_bindAll, if_pos ⟨t, ht, rfl⟩, h t ht]
  rfl

end Bindings

end CodeGraph
