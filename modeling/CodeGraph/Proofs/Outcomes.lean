import CodeGraph.Proofs.BoundTrees
import CodeGraph.Proofs.Reading

/-!
# What resolving a vertex comes to

`Vertex.Fails` and `Vertex.Unreadable` are read off a vertex. A vertex that fails cannot be resolved, in
whatever state and by whatever policy, and the attempt leaves the pairs that are registered and staged as
they were. Any other vertex is resolved (`Context.resolve_outcome`). If its syntax tree is unreadable what
is built is a single placeholder, which is bound to the vertex like any value if the objects still to be
built are not bound. They never are, if what the rules hand out again and again are shared objects
(`Access.unbuilt_after`).
-/

namespace CodeGraph

namespace Vertex

/-- The label is none that can be resolved, or it is code and there is no syntax tree. -/
def Fails (v : Vertex) : Prop :=
  (v.label ≠ codeLabel ∧ v.label ≠ fileLabel) ∨ (v.label = codeLabel ∧ v.property? "json" = none)

/-- A line of code whose syntax tree is neither an object nor a text that spells a document. -/
def Unreadable (v : Vertex) : Prop :=
  v.label = codeLabel ∧ ∃ raw, v.property? "json" = some raw ∧ raw.isObject = false ∧
    ∀ s, raw = .str s → Json.parse? s = none

theorem resolves_eq_false_iff {v : Vertex} : v.resolves = false ↔ v.Fails := by
  unfold resolves Fails
  by_cases hcode : v.label = codeLabel
  · rw [if_pos hcode, Option.isSome_eq_false_iff, Option.isNone_iff_eq_none]
    exact ⟨fun h => Or.inr ⟨hcode, h⟩, fun h => h.elim (fun h => absurd hcode h.1) And.right⟩
  · rw [if_neg hcode, decide_eq_false_iff_not]
    exact ⟨fun h => Or.inl ⟨hcode, h⟩, fun h => h.elim And.right fun h => absurd h.1 hcode⟩

instance (v : Vertex) : Decidable v.Fails := decidable_of_iff _ resolves_eq_false_iff

theorem readTree?_eq_none_iff {raw : Json} : Context.readTree? raw = none ↔
    raw.isObject = false ∧ ∀ s, raw = .str s → Json.parse? s = none := by
  unfold Context.readTree?
  split
  · next s => simp [Json.isObject]
  · next hstr =>
    cases raw.isObject with
    | true => exact ⟨nofun, fun h => nomatch h.1⟩
    | false => exact ⟨fun _ => ⟨rfl, fun s hs => absurd hs (hstr s)⟩, fun _ => rfl⟩

theorem unreadable_iff {v : Vertex} : v.Unreadable ↔ v.label = codeLabel ∧
    (v.property? "json").any (fun raw => (Context.readTree? raw).isNone) = true := by
  unfold Unreadable
  simp only [Option.any_eq_true, Option.isNone_iff_eq_none, readTree?_eq_none_iff]

instance (v : Vertex) : Decidable v.Unreadable := decidable_of_iff _ unreadable_iff.symm

end Vertex

/-! ### Objects that are still to be built -/

/-- An object that a rule hands out again and again. -/
def Ref.IsShared (r : Ref) : Prop := ∃ key, r = .shared key

/-- The rules hand out nothing that exists but shared objects. -/
def Language.Shares (l : Language) : Prop :=
  ∀ a v, l.recipe? a = some (.existing v) → ∀ t ∈ v.preorder, t.tag.IsShared

namespace Context
variable {c : Context}

theorem wpE_buildVertex_made (h : c.language.Shares) (v : Vertex) :
    wpE (buildVertex v)
      (fun r c' => c.bindings.serial ≤ c'.bindings.serial ∧
        Language.MadeBetween Ref.IsShared c.bindings.serial c'.bindings.serial [r.value])
      (fun _ _ => True) c := by
  have hleaf (identifier : String) : Language.MadeBetween Ref.IsShared c.bindings.serial
      (c.bindings.serial + 1) [.node (.built c.bindings.serial) (.stub identifier) []] :=
    Language.madeBetween_nil.root (Nat.le_refl _)
  have htree (raw : Json) : wp (buildTree raw) (fun r c' => c.bindings.serial ≤ c'.bindings.serial ∧
      Language.MadeBetween Ref.IsShared c.bindings.serial c'.bindings.serial [r.2]) c := by
    unfold buildTree
    cases readTree? raw with
    | some j => exact Language.wp_build h ⟨j⟩ c.bindings.serial
    | none => exact ⟨Nat.le_succ _, hleaf invalidIdentifier⟩
  unfold buildVertex
  split
  · unfold buildCode
    cases v.property? "json" with
    | none => trivial
    | some raw =>
      show wpE (_ >>= _) _ _ _
      rw [wpE_bind, wpE_lift]
      exact wp_mono (htree raw) fun _ _ hr => hr
  · split
    · exact ⟨Nat.le_succ _, hleaf fileLabel⟩
    · trivial

theorem wp_resolve_unbuilt (h : c.language.Shares) (hu : c.bindings.Unbuilt) (v : Vertex)
    (policy : CachePolicy) : wp (resolve v policy).run (fun _ c' => c'.bindings.Unbuilt) c := by
  unfold wp
  rcases resolve_cases v policy c with ⟨e, hrun⟩ | ⟨built, c₁, registry, hbuild, -, -, hb, hrun⟩
  · rw [hrun]
    exact hu
  · rw [hrun]
    obtain ⟨hle, hmade⟩ := (wpE_of_run hbuild).1 (wpE_buildVertex_made h v)
    intro n hn
    have hserial : c₁.bindings.serial ≤ n := by
      rw [← Bindings.serial_bindAll c₁.bindings v.id built.value]
      exact hn
    show (c₁.bindings.bindAll v.id built.value).vertexOf[Ref.built n]? = none
    rw [Bindings.getElem?_bindAll, if_neg, hb]
    · exact hu n (Nat.le_trans hle hserial)
    · rintro ⟨t, ht, htag⟩
      rcases hmade t (by rwa [Tree.preorderAll, Tree.preorderAll, List.append_nil]) with
        ⟨key, hk⟩ | ⟨k, hk, -, hhi⟩
      · cases hk.symm.trans htag
      · cases hk.symm.trans htag
        exact Nat.lt_irrefl n (Nat.lt_of_lt_of_le hhi hserial)

end Context

namespace Access
variable {c : Context}

theorem wp_unbuilt (h : c.language.Shares) (hu : c.bindings.Unbuilt) (call : Access) :
    wp call.run (fun _ c' => c'.bindings.Unbuilt) c := by
  cases call with
  | lookup key =>
    refine wp_lookup_of key (fun c' ha => ha.bindings ▸ hu) fun v c' ha => ?_
    exact Context.wp_resolve_unbuilt (ha.language ▸ h) (ha.bindings ▸ hu) v .store
  | resolve v policy => exact Context.wp_resolve_unbuilt h hu v policy
  | register | contains | stage | unstage | clear => exact hu

theorem unbuilt_after (h : c.language.Shares) (hu : c.bindings.Unbuilt) (calls : List Access) :
    (after calls c).bindings.Unbuilt := by
  unfold after
  induction calls generalizing c with
  | nil => exact hu
  | cons call calls ih =>
    exact ih ((wp_later call c).language.symm ▸ h) (wp_unbuilt h hu call)

end Access

/-! ### Outcomes -/

namespace Context
variable {v : Vertex} {policy : CachePolicy} {c c' c₁ : Context} {built : Registration}

theorem wpE_resolve_resolves (v : Vertex) (policy : CachePolicy) (c : Context) :
    wpE (resolve v policy) (fun _ _ => v.resolves = true) (fun _ _ => v.resolves = false) c := by
  unfold resolve
  rw [wpE_bind]
  refine wpE_mono (wpE_buildVertex_undisturbed v c) (fun r c' h => ?_) fun _ _ h => h.1
  cases policy <;> exact h.1

theorem resolve_error_iff :
    (∃ e, ((resolve v policy).run.run c).1 = .error e) ↔ v.Fails := by
  have h := wpE_resolve_resolves v policy c
  unfold wpE wp at h
  rw [← Vertex.resolves_eq_false_iff]
  rcases hrun : ((resolve v policy).run.run c).1 with e | r
  · rw [hrun] at h
    exact ⟨fun _ => h, fun _ => ⟨e, rfl⟩⟩
  · rw [hrun] at h
    exact ⟨fun ⟨_, he⟩ => (nomatch he), fun hf => absurd (h.symm.trans hf) Bool.true_eq_false.mp⟩

theorem lookup_vertex_eq (h : c.registry.peek? v.id = none) :
    (lookup (.vertex v)).run.run c = (resolve v .store).run.run c := by
  have hmiss : (cached? v.id : Resolving _).run.run c = (.ok none, c) := by
    show (Except.ok (c.registry.touch? v.id).1, ({ c with registry := (c.registry.touch? v.id).2 } : Context)) = _
    unfold Registry.touch?
    rw [h]
  exact run_bind_of_run _ hmiss

theorem lookup_vertex_of_some {found : Registration} (h : c.registry.peek? v.id = some found) :
    ((lookup (.vertex v)).run.run c).1 = .ok found := by
  have hhit : (cached? v.id : Resolving _).run.run c =
      (.ok (some found), { c with registry := (c.registry.touch? v.id).2 }) := by
    rw [← h, ← Registry.touch?_fst]
    rfl
  exact congrArg Prod.fst (run_bind_of_run _ hhit)

theorem eq_of_resolve_error {e : Error} (h : (resolve v policy).run.run c = (.error e, c')) : c' = c := by
  rcases resolve_cases v policy c with ⟨e', hrun⟩ | ⟨built, c₁, registry, -, -, -, -, hrun⟩
  · exact congrArg Prod.snd (h.symm.trans hrun)
  · cases h.symm.trans hrun

theorem eq_of_lookup_error {e : Error} (h : (lookup (.vertex v)).run.run c = (.error e, c')) : c' = c := by
  cases hp : c.registry.peek? v.id with
  | none => exact eq_of_resolve_error ((lookup_vertex_eq hp).symm.trans h)
  | some found =>
    have hok := lookup_vertex_of_some hp
    rw [h] at hok
    cases hok

theorem undisturbed_of_resolve_bypass {x : Except Error Registration}
    (h : (resolve v .bypass).run.run c = (x, c')) : c.Undisturbed c' := by
  have hbypass := wpE_resolve_undisturbed v c
  unfold wpE wp at hbypass
  rw [h] at hbypass
  cases x with
  | ok r => exact hbypass.2.2
  | error e => exact hbypass.2 ▸ .refl c

theorem value_of_unreadable (hv : v.Unreadable) (h : (buildVertex v).run.run c = (.ok built, c₁)) :
    built.value = .node (.built c.bindings.serial) (.stub invalidIdentifier) [] := by
  obtain ⟨hcode, raw, hraw, ho, hs⟩ := hv
  have hbuild : wpE (buildVertex v)
      (fun r _ => r.value = .node (.built c.bindings.serial) (.stub invalidIdentifier) []) Never c := by
    unfold buildVertex buildCode
    rw [if_pos hcode, hraw]
    show wpE (_ >>= _) _ _ _
    rw [wpE_bind, wpE_lift]
    unfold buildTree
    rw [Vertex.readTree?_eq_none_iff.2 ⟨ho, hs⟩]
    rfl
  exact (wpE_of_run h).1 hbuild

theorem exists_of_not_fails (hv : ¬ v.Fails) (policy : CachePolicy) (c : Context) :
    ∃ built c', (resolve v policy).run.run c = (.ok (chosen policy (c.registry.peek? v.id) built), c') ∧
      built.node.vertex = v ∧ (v.Unreadable →
        built.value = .node (.built c.bindings.serial) (.stub invalidIdentifier) [] ∧
        (c.bindings.Unbuilt → c'.bindings.vertex? built.value = some v.id)) := by
  rcases resolve_cases v policy c with ⟨e, hrun⟩ | ⟨built, c₁, registry, hbuild, hnode, -, hb, hrun⟩
  · exact absurd (resolve_error_iff.1 ⟨e, congrArg Prod.fst hrun⟩) hv
  · refine ⟨built, _, hrun, hnode, fun hun => ?_⟩
    have hvalue := value_of_unreadable hun hbuild
    refine ⟨hvalue, fun hu => ?_⟩
    have hself : built.value ∈ built.value.stream := by
      rw [Tree.stream_eq_preorder]
      exact built.value.self_mem_preorder
    have hnew : c.bindings.vertex? built.value = none := by
      rw [hvalue]
      exact hu _ (Nat.le_refl _)
    have hbinds : BindsTree v.id built.value c
        { c₁ with bindings := c₁.bindings.bindAll v.id built.value, registry } := bindsTree_of_bindAll hb rfl
    have hbound := hbinds.inside built.value hself
    rwa [hnew] at hbound

end Context

end CodeGraph
