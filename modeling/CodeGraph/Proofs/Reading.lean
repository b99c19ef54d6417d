import CodeGraph.Proofs.Binding
import CodeGraph.Proofs.Wp

/-!
# What a vertex stands for

A language whose rules build fresh values never hands out an object twice (`Language.Fresh`). Its
values have the same shape whatever has been built before, and consist of objects that are new. So
what a vertex stands for does not depend on the state in which it is resolved: `Language.read` is
the node and the value, seen with every node bound to the vertex, and `wpE_resolve` says that this
is what `Context.resolve` makes, that it fails only where `Language.read` gives nothing, and what
it leaves behind.
-/

namespace CodeGraph

theorem Outline.recipe_ne_existing (o : Outline) (typeOf : Ast → Ty) (a : Ast) (v : Value) :
    o.recipe typeOf a ≠ some (.existing v) := by
  unfold recipe
  split <;> nofun

namespace Language
variable {l : Language}

/-- The rules build a new value whenever they build one. -/
def Fresh (l : Language) : Prop :=
  ∀ rule ∈ l.valueRules, ∀ a v, rule.recipe l.typeOf a ≠ some (.existing v)

theorem Fresh.recipe? (h : l.Fresh) (a : Ast) (v : Value) : l.recipe? a ≠ some (.existing v) := by
  intro hr
  unfold Language.recipe? at hr
  obtain ⟨rule, hfind, hrule⟩ := Option.bind_eq_some_iff.1 hr
  exact h rule (List.mem_of_find?_eq_some hfind) a v hrule

/-- Trees of objects that were built between two points of the count. -/
def BuiltBetween (n n' : Nat) (ts : List Value) : Prop :=
  ∀ t ∈ Tree.preorderAll ts, ∃ k, t.tag = .built k ∧ n ≤ k ∧ k < n'

/-- Trees of objects that satisfy `P` or were built between two points of the count. -/
def MadeBetween (P : Ref → Prop) (n n' : Nat) (ts : List Value) : Prop :=
  ∀ t ∈ Tree.preorderAll ts, P t.tag ∨ ∃ k, t.tag = .built k ∧ n ≤ k ∧ k < n'

section
variable {P : Ref → Prop} {n m n' m' : Nat} {t : Value} {ts : List Value}

theorem madeBetween_nil : MadeBetween P n n' [] := fun t ht => by simp [Tree.preorderAll] at ht

theorem MadeBetween.mono (h : MadeBetween P n n' ts) (hn : m ≤ n) (hn' : n' ≤ m') :
    MadeBetween P m m' ts := by
  intro t ht
  refine (h t ht).imp_right fun ⟨k, hk, hlo, hhi⟩ => ?_
  exact ⟨k, hk, Nat.le_trans hn hlo, Nat.lt_of_lt_of_le hhi hn'⟩

theorem MadeBetween.cons (ht : MadeBetween P n m [t]) (hts : MadeBetween P m n' ts) (hn : n ≤ m)
    (hn' : m ≤ n') : MadeBetween P n n' (t :: ts) := by
  intro u hu
  rw [Tree.preorderAll, List.mem_append] at hu
  rcases hu with hu | hu
  · exact ht.mono (Nat.le_refl _) hn' u (by rwa [Tree.preorderAll, Tree.preorderAll, List.append_nil])
  · exact hts.mono hn (Nat.le_refl _) u hu

theorem MadeBetween.root {h : Header} (hts : MadeBetween P n m ts) (hn : n ≤ m) :
    MadeBetween P n (m + 1) [.node (.built m) h ts] := by
  intro u hu
  rw [Tree.preorderAll, Tree.preorderAll, List.append_nil, Tree.preorder, List.mem_cons] at hu
  rcases hu with rfl | hu
  · exact Or.inr ⟨m, rfl, hn, Nat.lt_succ_self m⟩
  · exact hts.mono (Nat.le_refl _) (Nat.le_succ m) u hu

theorem MadeBetween.built (h : MadeBetween (fun _ => False) n n' ts) : BuiltBetween n n' ts :=
  fun t ht => (h t ht).resolve_left id

theorem builtBetween_leaf {h : Header} : BuiltBetween n (n + 1) [.node (.built n) h []] :=
  (madeBetween_nil.root (Nat.le_refl n)).built

theorem wp_mapM_made {α : Type} {f : α → StateM Nat Value} {xs : List α}
    (hf : ∀ x n, wp (f x) (fun v n' => n ≤ n' ∧ MadeBetween P n n' [v]) n) (n : Nat) :
    wp (xs.mapM f) (fun vs n' => n ≤ n' ∧ MadeBetween P n n' vs) n := by
  induction xs generalizing n with
  | nil => exact ⟨Nat.le_refl n, madeBetween_nil⟩
  | cons x xs ih =>
    rw [List.mapM_cons, wp_bind]
    refine wp_mono (hf x n) fun v m hv => ?_
    rw [wp_bind]
    refine wp_mono (ih m) fun vs n' hvs => ?_
    rw [wp_pure]
    exact ⟨Nat.le_trans hv.1 hvs.1, hv.2.cons hvs.2 hv.1 hvs.1⟩

theorem wp_build (h : ∀ a v, l.recipe? a = some (.existing v) → ∀ t ∈ v.preorder, P t.tag) (a : Ast)
    (n : Nat) : wp (l.build a) (fun v n' => n ≤ n' ∧ MadeBetween P n n' [v]) n := by
  induction a using Language.build.induct l generalizing n with
  | case1 a v hr =>
    rw [Language.build, hr]
    refine ⟨Nat.le_refl n, fun t ht => Or.inl (h a v hr t ?_)⟩
    rwa [Tree.preorderAll, Tree.preorderAll, List.append_nil] at ht
  | case2 a header parts hr ih =>
    rw [Language.build, hr]
    show wp _ _ _
    rw [wp_bind]
    refine wp_mono (wp_mapM_made (fun p n => ih p n) n) fun vs m hvs => ?_
    exact ⟨Nat.le_trans hvs.1 (Nat.le_succ m), hvs.2.root hvs.1⟩
  | case3 a hr =>
    rw [Language.build, hr]
    exact ⟨Nat.le_succ n, madeBetween_nil.root (Nat.le_refl n)⟩

end

theorem Fresh.wp_build (h : l.Fresh) (a : Ast) (n : Nat) :
    wp (l.build a) (fun v n' => n ≤ n' ∧ BuiltBetween n n' [v]) n :=
  wp_mono (Language.wp_build (fun a v hr => absurd hr (h.recipe? a v)) a n) fun _ _ hv =>
    ⟨hv.1, hv.2.built⟩

theorem mapM_shape {α : Type} {f : α → StateM Nat Value} {xs : List α}
    (hf : ∀ x n m, ((f x).run n).1.map (fun _ => ()) = ((f x).run m).1.map fun _ => ()) (n m : Nat) :
    Tree.mapAll (fun _ => ()) ((xs.mapM f).run n).1 =
      Tree.mapAll (fun _ => ()) ((xs.mapM f).run m).1 := by
  induction xs generalizing n m with
  | nil => rw [List.mapM_nil]; rfl
  | cons x xs ih =>
    rw [List.mapM_cons]
    show Tree.mapAll _ (((f x).run n).1 :: ((xs.mapM f).run _).1) =
      Tree.mapAll _ (((f x).run m).1 :: ((xs.mapM f).run _).1)
    rw [Tree.mapAll, Tree.mapAll, hf x n m, ih]

/-- How much has been built before does not show in the shape of a value. -/
theorem Fresh.build_shape (h : l.Fresh) (a : Ast) (n m : Nat) :
    ((l.build a).run n).1.map (fun _ => ()) = ((l.build a).run m).1.map fun _ => () := by
  induction a using Language.build.induct l generalizing n m with
  | case1 a v hr => exact absurd hr (h.recipe? a v)
  | case2 a header parts hr ih =>
    rw [Language.build, hr]
    show Tree.map _ (.node _ header ((parts.mapM fun p => l.build p.1).run n).1) =
      Tree.map _ (.node _ header ((parts.mapM fun p => l.build p.1).run m).1)
    rw [Tree.map, Tree.map, mapM_shape fun p n m => ih p n m]
  | case3 a hr => rw [Language.build, hr]; rfl

end Language

namespace Tree
variable {ι κ μ : Type}

mutual

theorem map_map (f : ι → κ) (g : κ → μ) (t : Tree ι) : (t.map f).map g = t.map fun i => g (f i) := by
  cases t with
  | node tag header cs => rw [map, map, map, mapAll_mapAll]

theorem mapAll_mapAll (f : ι → κ) (g : κ → μ) (ts : List (Tree ι)) :
    mapAll g (mapAll f ts) = mapAll (fun i => g (f i)) ts := by
  cases ts with
  | nil => rfl
  | cons t ts => rw [mapAll, mapAll, mapAll, map_map, mapAll_mapAll]

end

end Tree

/-- A node and its value as it is seen. -/
structure Reading where
  node : GraphNode
  value : Seen

namespace Language

/-- What a vertex stands for: its node, and its value with every node bound to the vertex. There is
none for a vertex that cannot be resolved. -/
def read (l : Language) (v : Vertex) : Option Reading :=
  match (Context.buildVertex v).run.run (Context.new l none) with
  | (.ok r, _) => some ⟨r.node, r.value.map fun _ => .vertex v.id⟩
  | (.error _, _) => none

end Language

theorem Context.wpE_buildVertex_vertex (v : Vertex) (c : Context) :
    wpE (buildVertex v) (fun r _ => r.node.vertex = v) (fun _ _ => True) c := by
  unfold buildVertex buildCode
  split
  · cases v.property? "json" with
    | none => trivial
    | some raw =>
      show wpE (_ >>= _) _ _ _
      rw [wpE_bind]
      exact rfl
  · split
    · exact rfl
    · trivial

theorem Language.read_eq_some {l : Language} {v : Vertex} {r : Reading} (h : l.read v = some r) :
    r.node.vertex = v ∧ ∀ u ∈ r.value.preorder, u.tag = .vertex v.id := by
  have hv := Context.wpE_buildVertex_vertex v (Context.new l none)
  unfold wpE wp at hv
  unfold Language.read at h
  rcases hx : (Context.buildVertex v).run.run (Context.new l none) with ⟨x, c⟩
  rw [hx] at h hv
  cases x with
  | error e => cases h
  | ok p =>
    cases h
    refine ⟨hv, fun u hu => ?_⟩
    rw [Tree.preorder_map] at hu
    obtain ⟨t, -, rfl⟩ := List.mem_map.1 hu
    exact Tree.tag_map ..

namespace Context
variable {c : Context}

/-- `v` has been built on the way from `c` to `c'`, on which nothing was bound or registered. -/
structure Builds (c c' : Context) (v : Value) : Prop where
  language : c'.language = c.language
  vertexOf : c'.bindings.vertexOf = c.bindings.vertexOf
  serial : c.bindings.serial ≤ c'.bindings.serial
  built : Language.BuiltBetween c.bindings.serial c'.bindings.serial [v]
  registry : c'.registry = c.registry
  staged : c'.staged = c.staged

theorem wp_buildTree (h : c.language.Fresh) (raw : Json) (id : VertexId) :
    wp (buildTree raw) (fun r c' =>
      let r' := ((buildTree raw).run (new c.language none)).1
      Builds c c' r.2 ∧ r.1 = r'.1 ∧
        r.2.map (fun _ => Identity.vertex id) = r'.2.map fun _ => Identity.vertex id) c := by
  unfold buildTree
  cases readTree? raw with
  | none =>
    exact ⟨⟨rfl, rfl, Nat.le_succ _, Language.builtBetween_leaf, rfl, rfl⟩, rfl, rfl⟩
  | some j =>
    have hb := h.wp_build ⟨j⟩ c.bindings.serial
    refine ⟨⟨rfl, rfl, hb.1, hb.2, rfl, rfl⟩, rfl, ?_⟩
    have hs := congrArg (Tree.map fun _ => Identity.vertex id)
      (h.build_shape ⟨j⟩ c.bindings.serial 0)
    rwa [Tree.map_map, Tree.map_map] at hs

theorem wpE_buildCode (h : c.language.Fresh) (v : Vertex) :
    wpE (buildCode v) (fun r c' => Builds c c' r.value ∧
        ∃ r', ((buildCode v).run.run (new c.language none)).1 = .ok r' ∧ r.node = r'.node ∧
          r.value.map (fun _ => Identity.vertex v.id) = r'.value.map fun _ => Identity.vertex v.id)
      (fun _ c' => c' = c ∧ ∃ e, ((buildCode v).run.run (new c.language none)).1 = .error e) c := by
  unfold buildCode
  cases v.property? "json" with
  | none => exact ⟨rfl, _, rfl⟩
  | some raw =>
    show wpE (_ >>= _) _ _ _
    rw [wpE_bind, wpE_lift]
    refine wp_mono (wp_buildTree h raw v.id) fun r c' hr => ?_
    obtain ⟨hb, hast, hval⟩ := hr
    exact ⟨hb, _, rfl, by rw [hast]; rfl, hval⟩

/-- Building the pair of a vertex makes what the vertex stands for, and fails only if that is
nothing. -/
theorem wpE_buildVertex (h : c.language.Fresh) (v : Vertex) :
    wpE (buildVertex v)
      (fun r c' => Builds c c' r.value ∧
        c.language.read v = some ⟨r.node, r.value.map fun _ => .vertex v.id⟩)
      (fun _ c' => c' = c ∧ c.language.read v = none) c := by
  unfold Language.read buildVertex
  split
  · refine wpE_mono (wpE_buildCode h v) (fun r c' hr => ?_) fun e c' he => ?_
    · obtain ⟨hb, r', hrun, hnode, hval⟩ := hr
      refine ⟨hb, ?_⟩
      rcases hx : (buildCode v).run.run (new c.language none) with ⟨x, c''⟩
      rw [hx] at hrun
      subst hrun
      rw [hnode, hval]
    · obtain ⟨rfl, e', hrun⟩ := he
      refine ⟨rfl, ?_⟩
      rcases hx : (buildCode v).run.run (new c'.language none) with ⟨x, c''⟩
      rw [hx] at hrun
      subst hrun
      rfl
  · split
    · exact ⟨⟨rfl, rfl, Nat.le_succ _, Language.builtBetween_leaf, rfl, rfl⟩, rfl⟩
    · exact ⟨rfl, rfl⟩

/-- What is known in `c` is known in `c'`; what is registered stays so if there is no bound. -/
structure Grows (c c' : Context) : Prop where
  language : c'.language = c.language
  bindings : c.bindings.Extends c'.bindings
  unbuilt : c.bindings.Unbuilt → c'.bindings.Unbuilt
  capacity : c'.registry.capacity = c.registry.capacity
  kept : c.registry.capacity = none → ∀ id, c.registry.contains id = true →
    c'.registry.contains id = true

theorem Grows.of_registry_eq {c' : Context} (hl : c'.language = c.language)
    (hb : c'.bindings = c.bindings) (hr : c'.registry = c.registry) : c.Grows c' where
  language := hl
  bindings := by rw [hb]; exact .refl _
  unbuilt hu := by rw [hb]; exact hu
  capacity := by rw [hr]
  kept _ id hid := by rw [hr]; exact hid

theorem Grows.refl (c : Context) : c.Grows c := .of_registry_eq rfl rfl rfl

theorem Grows.trans {c' c'' : Context} (h : c.Grows c') (h' : c'.Grows c'') : c.Grows c'' :=
  ⟨h'.language.trans h.language, h.bindings.trans h'.bindings, h'.unbuilt ∘ h.unbuilt,
    h'.capacity.trans h.capacity,
    fun hn id hid => h'.kept (h.capacity.trans hn) id (h.kept hn id hid)⟩

end Context

/-- A pair is what its vertex stands for, as it is seen in `c`. -/
def Registration.Faithful (c : Context) (r : Registration) : Prop :=
  c.language.read r.node.vertex = some ⟨r.node, c.bindings.view r.value⟩

namespace Registration
variable {c c' : Context} {r : Registration}

theorem Faithful.owns (h : r.Faithful c) : c.bindings.Owns r.id r.value :=
  Bindings.owns_iff_view.2 (Language.read_eq_some h).2

theorem Faithful.mono (h : r.Faithful c) (hg : c.Grows c') : r.Faithful c' := by
  unfold Registration.Faithful
  rw [hg.language, h.owns.view_mono hg.bindings]
  exact h

end Registration

namespace Context
variable {c : Context}

theorem wpE_resolve_bypass (h : c.language.Fresh) (hu : c.bindings.Unbuilt) (v : Vertex) :
    wpE (resolve v .bypass)
      (fun r c' => c.Grows c' ∧ c'.registry = c.registry ∧ c'.staged = c.staged ∧
        r.node.vertex = v ∧ r.Faithful c')
      (fun _ c' => c' = c ∧ c.language.read v = none) c := by
  unfold resolve
  rw [wpE_bind]
  refine wpE_mono (wpE_buildVertex h v) (fun r c' hr => ?_) fun _ _ he => he
  obtain ⟨hb, hread⟩ := hr
  have hv : r.node.vertex = v := (Language.read_eq_some hread).1
  have hnew : ∀ t ∈ r.value.preorder, c'.bindings.vertexOf[t.tag]? = none := by
    intro t ht
    obtain ⟨k, hk, hlo, -⟩ := hb.built t (by simpa [Tree.preorderAll] using ht)
    rw [hb.vertexOf, hk]
    exact hu k hlo
  have hext : c.bindings.Extends c'.bindings := fun x id hx => by rw [hb.vertexOf]; exact hx
  rw [wpE_bind, wpE_lift]
  refine ⟨⟨hb.language, hext.trans (Bindings.extends_bindAll c'.bindings v.id r.value),
    fun _ n hn => ?_, congrArg Registry.capacity hb.registry, fun _ id hid => ?_⟩, hb.registry,
    hb.staged, hv, ?_⟩
  · have hserial : c'.bindings.serial ≤ n := by
      rw [← Bindings.serial_bindAll c'.bindings v.id r.value]; exact hn
    show (c'.bindings.bindAll v.id r.value).vertexOf[Ref.built n]? = none
    rw [Bindings.getElem?_bindAll, if_neg, hb.vertexOf]
    · exact hu n (Nat.le_trans hb.serial hserial)
    · rintro ⟨t, ht, htag⟩
      obtain ⟨k, hk, -, hhi⟩ := hb.built t (by simpa [Tree.preorderAll] using ht)
      rw [hk, Ref.built.injEq] at htag
      omega
  · show c'.registry.contains id = true
    rw [hb.registry]
    exact hid
  · show c'.language.read r.node.vertex =
      some ⟨r.node, (c'.bindings.bindAll v.id r.value).view r.value⟩
    rw [hb.language, hv, (Bindings.owns_bindAll hnew).view]
    exact hread

end Context

end CodeGraph
