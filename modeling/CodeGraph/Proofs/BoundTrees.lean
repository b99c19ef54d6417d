import CodeGraph.Proofs.LaterRules
import CodeGraph.Proofs.StagedPairs

/-!
# What a resolution binds

Resolving a vertex walks over the value that it builds and binds what is not bound yet
(`Context.BindsTree`), whatever was bound before and whichever objects the value shares with others.
Nothing else binds, so that a context is followed by contexts in which more is bound, but nothing
otherwise (`Context.Later`). If everything in the value is new when it is bound, then it goes on to lead
to the vertex: the vertex, its node and anything in the value are looked up alike.
-/

namespace CodeGraph

namespace Context
variable {c c' c'' : Context} {v : Vertex} {id : VertexId} {tree : Value}

/-! ### One resolution -/

/-- In the tree everything is bound that was not, to this vertex. Nothing else changes. -/
structure BindsTree (id : VertexId) (tree : Value) (c c' : Context) : Prop where
  inside : ∀ t ∈ tree.stream, c'.bindings.vertex? t = some ((c.bindings.vertex? t).getD id)
  outside : ∀ u : Value, (∀ t ∈ tree.stream, t.tag ≠ u.tag) →
    c'.bindings.vertex? u = c.bindings.vertex? u

theorem bindsTree_of_bindAll {b : Bindings} (hb : b.vertexOf = c.bindings.vertexOf)
    (h : c'.bindings.vertexOf = (b.bindAll id tree).vertexOf) : BindsTree id tree c c' where
  inside t ht := by
    rw [Tree.stream_eq_preorder] at ht
    unfold Bindings.vertex?
    rw [h, Bindings.getElem?_bindAll, if_pos ⟨t, ht, rfl⟩, hb]
    cases c.bindings.vertexOf[t.tag]? <;> rfl
  outside u hu := by
    rw [Tree.stream_eq_preorder] at hu
    unfold Bindings.vertex?
    rw [h, Bindings.getElem?_bindAll, if_neg fun ⟨t, ht, htag⟩ => hu t ht htag, hb]

theorem BindsTree.extends (h : BindsTree id tree c c') : c.bindings.Extends c'.bindings := by
  intro r x hr
  by_cases ht : ∃ t ∈ tree.stream, t.tag = r
  · obtain ⟨t, ht, rfl⟩ := ht
    have hin := h.inside t ht
    rw [show c.bindings.vertex? t = some x from hr] at hin
    exact hin
  · have hout := h.outside (.node r (.stub "") []) fun t ht' htag => ht ⟨t, ht', htag⟩
    exact hout.trans hr

/-- The pair that comes of a new one: a registered one takes its place if it is to be registered. -/
def chosen (policy : CachePolicy) (found : Option Registration) (built : Registration) : Registration :=
  match policy with
  | .store => found.getD built
  | .bypass => built

/-- What a resolution can do: it fails and changes nothing, or it builds a pair, binds the tree of it, and
registers it if that is wanted. -/
theorem resolve_cases (v : Vertex) (policy : CachePolicy) (c : Context) :
    (∃ e, (resolve v policy).run.run c = (.error e, c)) ∨
      ∃ built c₁ registry, (buildVertex v).run.run c = (.ok built, c₁) ∧ built.node.vertex = v ∧
        c.Undisturbed c₁ ∧ c₁.bindings.vertexOf = c.bindings.vertexOf ∧
        (resolve v policy).run.run c = (.ok (chosen policy (c.registry.peek? v.id) built),
          { c₁ with bindings := c₁.bindings.bindAll v.id built.value, registry }) := by
  have hbuild := wpE_buildVertex_undisturbed v c
  have hvertexOf := wpE_buildVertex_vertexOf v c
  unfold resolve
  rcases hrun : (buildVertex v).run.run c with ⟨e | built, c₁⟩
  · -- only building can fail, and then it has changed nothing
    refine Or.inl ⟨e, ?_⟩
    unfold wpE wp at hbuild
    rw [hrun] at hbuild
    obtain ⟨-, rfl⟩ := hbuild
    rw [ExceptT.run_bind, StateT.run_bind, hrun]
    rfl
  · rw [wpE_of_run hrun] at hbuild hvertexOf
    obtain ⟨-, hnode, hc⟩ := hbuild
    have hid : built.id = v.id := congrArg Vertex.id hnode
    refine Or.inr ⟨built, c₁, match policy with
      | .store => (c₁.registry.register built).2
      | .bypass => c₁.registry, rfl, hnode, hc, hvertexOf, ?_⟩
    rw [run_bind_of_run _ hrun, ← hid, ← hc.registry]
    cases policy with
    | bypass => rfl
    | store =>
      unfold chosen
      rw [← Registry.register_fst]
      rfl

/-! ### One context after another -/

/-- More may be bound in `c'` than in `c`, but nothing otherwise, and no object that is still to be built
if the rules build new ones. -/
structure Later (c c' : Context) : Prop where
  language : c'.language = c.language
  bindings : c.bindings.Extends c'.bindings
  unbuilt : c.language.Fresh → c.bindings.Unbuilt → c'.bindings.Unbuilt

namespace Later

theorem refl (c : Context) : c.Later c := ⟨rfl, .refl _, fun _ hu => hu⟩

theorem trans (h : c.Later c') (h' : c'.Later c'') : c.Later c'' :=
  ⟨h'.language.trans h.language, h.bindings.trans h'.bindings,
    fun hl hu => h'.unbuilt (h.language ▸ hl) (h.unbuilt hl hu)⟩

theorem of_eq (hl : c'.language = c.language) (hb : c'.bindings = c.bindings) : c.Later c' :=
  ⟨hl, hb ▸ .refl _, fun _ hu => hb ▸ hu⟩

end Later

theorem Alike.later (h : c.Alike c') : c.Later c' := .of_eq h.language h.bindings

theorem wp_resolve_later (v : Vertex) (policy : CachePolicy) (c : Context) :
    wp (resolve v policy).run (fun _ c' => c.Later c') c := by
  unfold wp
  rcases resolve_cases v policy c with ⟨e, hrun⟩ | ⟨built, c₁, registry, hbuild, -, hc, hb, hrun⟩
  · rw [hrun]
    exact .refl c
  · rw [hrun]
    refine ⟨hc.language, (bindsTree_of_bindAll hb rfl).extends, fun hl hu => ?_⟩
    -- the same is bound whether the pair is registered or not
    have hbypass : (resolve v .bypass).run.run c =
        (.ok built, { c₁ with bindings := c₁.bindings.bindAll v.id built.value }) :=
      run_bind_of_run _ hbuild
    exact ((wpE_of_run hbypass).1 (wpE_resolve_bypass hl hu v)).1.unbuilt hu

theorem wp_lookup_later (key : NodeKey) (c : Context) :
    wp (lookup key).run (fun _ c' => c.Later c') c :=
  Access.wp_lookup_of key (fun _ ha => ha.later) fun v c' ha =>
    wp_mono (wp_resolve_later v .store c') fun _ _ h => ha.later.trans h

end Context

namespace Access

def after (calls : List Access) (c : Context) : Context := calls.foldl (fun c call => (call.run.run c).2) c

theorem wp_later (call : Access) (c : Context) : wp call.run (fun _ c' => c.Later c') c := by
  cases call with
  | lookup key => exact Context.wp_lookup_later key c
  | resolve v policy => exact Context.wp_resolve_later v policy c
  | register | contains | stage | unstage | clear => exact .of_eq rfl rfl

theorem later_after (calls : List Access) (c : Context) : c.Later (after calls c) := by
  unfold after
  induction calls generalizing c with
  | nil => exact .refl c
  | cons call calls ih => exact (wp_later call c).trans (ih _)

end Access

/-! ### Calls -/

def sharedLambda : Value := .node (.shared 0) (.ofKind "Lambda") []

/-- Calls have their parts, names have none, and all lambdas are one object. -/
def sharingLanguage : Language where
  name := "sharing"
  valueRules := [
    ⟨.one "Call", Outline.recipe ⟨none, ["func"], ["args"], [], none, none⟩⟩,
    ⟨.one "Name", fun _ _ => some (.fresh (.ofKind "Name") [])⟩,
    ⟨.one "Lambda", fun _ _ => some (.existing sharedLambda)⟩]
  typeRules := []

def callName (n : Nat) : Value := .node (.built n) (.ofKind "Name") []

def sharedCall (n : Nat) : Value := .node (.built (n + 1)) (.ofKind "Call") [callName n, sharedLambda]

theorem build_sharedCall (n : Nat) : (sharingLanguage.build callTree).run n = (sharedCall n, n + 2) := by
  have hname : sharingLanguage.factory.Builds nameTree n [nameTree] (callName n) (n + 1) :=
    ⟨[], some _, n + 1, .node (.give _ _), rfl, rfl⟩
  have hlambda (n : Nat) : sharingLanguage.factory.Builds lambdaTree n [lambdaTree] sharedLambda n :=
    ⟨[], some _, n, .give _ _, rfl, rfl⟩
  have hcall : sharingLanguage.factory.Builds callTree n [callTree, nameTree, lambdaTree]
      (sharedCall n) (n + 2) :=
    ⟨_, some _, n + 2, hname.runs_value ((hlambda _).runs_value (.node (.give _ _))), rfl, rfl⟩
  obtain ⟨-, hv, hm⟩ := hcall.unique (sharingLanguage.builds_factory callTree n)
  exact Prod.ext hv hm

theorem stream_sharedCall (n : Nat) :
    (sharedCall n).stream = [sharedCall n, callName n, sharedLambda] := by
  rw [Tree.stream_eq_preorder]
  rfl

def callVertex (id : VertexId) : Vertex := (Vertex.bare id codeLabel).withProperty "json" callTree.json

theorem fresh_callLanguage : callLanguage.Fresh := by
  intro rule hrule a v
  simp only [callLanguage, List.mem_cons, List.not_mem_nil, or_false] at hrule
  rcases hrule with rfl | rfl | rfl
  · exact Outline.recipe_ne_existing ⟨none, ["func"], ["args"], [], none, none⟩ _ a v
  · nofun
  · nofun

namespace Context
variable {v : Vertex} {policy : CachePolicy} {kept : Registration} {c c' : Context} {id : VertexId}

theorem resolve_callVertex (id : VertexId) (hn : c.registry.capacity = none)
    (hid : c.registry.peek? id = none) :
    ∃ kept c', (resolve (callVertex id) .store).run.run c = (.ok kept, c') ∧
      (c.language.build callTree).run c.bindings.serial = (kept.value, c'.bindings.serial) ∧
      c'.language = c.language ∧ c'.registry.capacity = none ∧
      ∀ x, c'.registry.peek? x = if x = id then some kept else c.registry.peek? x := by
  let built := (c.language.build callTree).run c.bindings.serial
  obtain ⟨line, hbuild⟩ : ∃ line, (buildVertex (callVertex id)).run.run c =
      (.ok ⟨.code (callVertex id) line, built.1⟩,
        { c with bindings := { c.bindings with serial := built.2 } }) := ⟨_, rfl⟩
  have hkept : (c.registry.register ⟨.code (callVertex id) line, built.1⟩).1 =
      ⟨.code (callVertex id) line, built.1⟩ := by
    rw [Registry.register_fst, show Registration.id _ = id from rfl, hid]
    rfl
  refine ⟨_, _, (run_bind_of_run _ hbuild).trans (Prod.ext (congrArg Except.ok hkept) rfl), ?_, rfl, ?_,
    fun x => ?_⟩
  · show built = (built.1, (Bindings.bindAll _ id built.1).serial)
    rw [Bindings.serial_bindAll]
    rfl
  · exact (Registry.capacity_register _ _).trans hn
  · exact (Registry.peek?_register hn x).trans (by rw [hkept]; rfl)

/-! ### Looking up what was bound -/

theorem lookup_value_eq {t : Value} (h : c.bindings.vertex? t = some id) :
    (lookup (.value t)).run.run c = (lookup (.id id)).run.run c := by
  have hvertex : wpE (vertexOf t) (fun x d => x = id ∧ d = c) Never c := by
    unfold vertexOf
    rw [wpE_bind, wpE_get, h]
    exact ⟨rfl, rfl⟩
  obtain ⟨_, _, hrun, rfl, rfl⟩ := exists_of_wpE hvertex
  exact run_bind_of_run known hrun

/-- The value belongs to the vertex. While a pair of the vertex is registered or staged, the vertex, a node
of it and the value are looked up alike, and what is registered hides what is staged. -/
structure LeadsTo (c : Context) (id : VertexId) (t : Value) : Prop where
  vertex? : c.bindings.vertex? t = some id
  lookup : ∀ pair, c.registry.peek? id = some pair ∨ c.staged[id]? = some pair →
    ∃ r, (r = pair ∨ c.registry.peek? id = some r) ∧
      ∀ key, key = .id id ∨ (∃ n, n.id = id ∧ key = .node n) ∨ key = .value t →
        ((Context.lookup key).run.run c).1 = .ok r

theorem leadsTo_of_vertex? {t : Value} (h : c.bindings.vertex? t = some id) : c.LeadsTo id t := by
  refine ⟨h, fun pair hpair => ?_⟩
  obtain ⟨r, hr, hfound⟩ : ∃ r, (r = pair ∨ c.registry.peek? id = some r) ∧
      (c.registry.peek? id).or c.staged[id]? = some r := by
    cases hpeek : c.registry.peek? id with
    | some r => exact ⟨r, Or.inr rfl, rfl⟩
    | none =>
      rw [hpeek] at hpair
      exact ⟨pair, Or.inl rfl, hpair.resolve_left nofun⟩
  have hid : ((lookup (.id id)).run.run c).1 = .ok r := by
    have hlookup : ((lookup (.id id)).run.run c).1 = _ := Event.wp_lookup_id c id
    rw [hlookup, hfound]
    rfl
  refine ⟨r, hr, fun key hkey => ?_⟩
  rcases hkey with rfl | ⟨n, rfl, rfl⟩ | rfl
  · exact hid
  · exact hid
  · rw [lookup_value_eq h]
    exact hid

/-- A value of a registered vertex is looked up as what is registered. -/
theorem lookup_value_eq_ok {t : Value} {r : Registration}
    (ht : c.bindings.vertex? t = some id) (hr : c.registry.peek? id = some r) :
    ((lookup (.value t)).run.run c).1 = .ok r := by
  obtain ⟨r', hr', hlookup⟩ := (leadsTo_of_vertex? ht).lookup r (Or.inl hr)
  obtain rfl : r' = r := hr'.elim (fun h => h) fun h => Option.some.inj (h.symm.trans hr)
  exact hlookup _ (Or.inr (Or.inr rfl))

/-- A successful resolution gives the pair that it has built, unless one that is registered takes its
place. In the tree that it has built, it binds to the vertex what was not bound, and nothing else. What
is bound stays so over any calls. If the rules build anew, nothing in the tree was bound before, and if
so, all of it leads to the vertex ever after. -/
theorem resolve_binds_tree_once (h : (resolve v policy).run.run c = (.ok kept, c')) :
    (∃ built c₁, (buildVertex v).run.run c = (.ok built, c₁) ∧ built.node.vertex = v ∧
      kept = chosen policy (c.registry.peek? v.id) built ∧
      BindsTree v.id built.value c c' ∧
      (c.language.Fresh → c.bindings.Unbuilt → ∀ t ∈ built.value.stream, c.bindings.vertex? t = none) ∧
      ((∀ t ∈ built.value.stream, c.bindings.vertex? t = none) →
        ∀ calls, ∀ t ∈ built.value.stream, (Access.after calls c').LeadsTo v.id t)) ∧
    (∀ calls, c.bindings.Extends (Access.after calls c).bindings) ∧
    ∀ l capacity calls, l.Fresh → (Access.after calls (new l capacity)).bindings.Unbuilt := by
  refine ⟨?_, fun calls => (Access.later_after calls c).bindings, fun l capacity calls hl =>
    (Access.later_after calls _).unbuilt hl fun _ _ => Std.HashMap.getElem?_empty⟩
  rcases resolve_cases v policy c with ⟨e, hrun⟩ | ⟨built, c₁, registry, hbuild, hnode, hc, hb, hrun⟩
  · cases h.symm.trans hrun
  cases h.symm.trans hrun
  have hbinds : BindsTree v.id built.value c
      { c₁ with bindings := c₁.bindings.bindAll v.id built.value, registry } := bindsTree_of_bindAll hb rfl
  refine ⟨built, c₁, hbuild, hnode, rfl, hbinds, fun hl hu => ?_, fun hnew calls t ht =>
    leadsTo_of_vertex? ?_⟩
  · intro t ht
    rw [Tree.stream_eq_preorder] at ht
    obtain ⟨k, hk, hlo, -⟩ := ((wpE_of_run hbuild).1 (wpE_buildVertex hl v)).1.built t
      (by simpa [Tree.preorderAll] using ht)
    unfold Bindings.vertex?
    rw [hk]
    exact hu k hlo
  · refine (Access.later_after calls _).bindings t.tag v.id ?_
    have hin := hbinds.inside t ht
    rwa [hnew t ht] at hin

/-- Two calls are resolved whose lambda is one object. It is bound to the first vertex when the second is
resolved and stays so, while the rest of the second call is bound then. If the rules build anew, then each
value of a call leads to its vertex. -/
theorem resolve_binds_tree_once_calls :
    (∃ first c₁ second c₂,
      (resolve (callVertex ⟨1⟩) .store).run.run (new sharingLanguage none) = (.ok first, c₁) ∧
      (resolve (callVertex ⟨2⟩) .store).run.run c₁ = (.ok second, c₂) ∧
      second.value.stream.map c₁.bindings.vertex? = [none, none, some ⟨1⟩] ∧
      second.value.stream.map c₂.bindings.vertex? = [some ⟨2⟩, some ⟨2⟩, some ⟨1⟩] ∧
      first.value.stream.map (fun t => ((lookup (.value t)).run.run c₂).1) =
        [.ok first, .ok first, .ok first] ∧
      second.value.stream.map (fun t => ((lookup (.value t)).run.run c₂).1) =
        [.ok second, .ok second, .ok first]) ∧
    ∃ kept c',
      (resolve (callVertex ⟨1⟩) .store).run.run (new callLanguage none) = (.ok kept, c') ∧
      kept.value.stream.map (fun t => ((lookup (.value t)).run.run c').1) =
        [.ok kept, .ok kept, .ok kept] := by
  constructor
  · obtain ⟨first, c₁, hrun₁, hbuild₁, hl₁, hn₁, hpeek₁⟩ :=
      resolve_callVertex ⟨1⟩ (c := new sharingLanguage none) rfl rfl
    obtain ⟨hvalue₁, hserial⟩ := Prod.mk.inj ((build_sharedCall 0).symm.trans hbuild₁)
    obtain ⟨second, c₂, hrun₂, hbuild₂, -, -, hpeek₂⟩ := resolve_callVertex ⟨2⟩ hn₁ (hpeek₁ _)
    rw [hl₁, ← hserial] at hbuild₂
    obtain ⟨hvalue₂, -⟩ := Prod.mk.inj ((build_sharedCall 2).symm.trans hbuild₂)
    obtain ⟨⟨built, -, -, -, hkept₁, hbinds₁, -, hleads₁⟩, -⟩ := resolve_binds_tree_once hrun₁
    obtain rfl : first = built := hkept₁
    obtain ⟨⟨built, -, -, -, hkept₂, hbinds₂, -⟩, -⟩ := resolve_binds_tree_once hrun₂
    obtain rfl : second = built := hkept₂.trans (congrArg (chosen .store · built) (hpeek₁ ⟨2⟩))
    -- the lambda is among what is bound to the first vertex, the call and the name are new
    have hempty (t : Value) : (new sharingLanguage none).bindings.vertex? t = none :=
      Std.HashMap.getElem?_empty
    have hfirst (t) (ht : t ∈ first.value.stream) : c₁.bindings.vertex? t = some ⟨1⟩ := by
      rw [hbinds₁.inside t ht, hempty]
      rfl
    have hlater (u : Value) (hu : ∀ t ∈ first.value.stream, t.tag ≠ u.tag) :
        c₁.bindings.vertex? u = none := by
      rw [hbinds₁.outside u hu, hempty]
    have hsecond : ∀ t ∈ second.value.stream, c₂.bindings.vertex? t =
        some ((c₁.bindings.vertex? t).getD ⟨2⟩) := hbinds₂.inside
    have hkeeps : c₂.registry.peek? ⟨1⟩ = some first := (hpeek₂ ⟨1⟩).trans (hpeek₁ ⟨1⟩)
    have hafter : Access.after [.resolve (callVertex ⟨2⟩) .store] c₁ = c₂ := congrArg Prod.snd hrun₂
    have hleads : ∀ t ∈ first.value.stream, c₂.LeadsTo ⟨1⟩ t := by
      rw [← hafter]
      exact hleads₁ (fun t _ => hempty t) _
    refine ⟨first, c₁, second, c₂, hrun₁, hrun₂, ?_⟩
    rw [← hvalue₁, stream_sharedCall] at hfirst hlater hleads ⊢
    rw [← hvalue₂, stream_sharedCall] at hsecond ⊢
    have hcall : c₁.bindings.vertex? (sharedCall 2) = none :=
      hlater _ (by simp [sharedCall, callName, sharedLambda, Tree.tag])
    have hname : c₁.bindings.vertex? (callName 2) = none :=
      hlater _ (by simp [sharedCall, callName, sharedLambda, Tree.tag])
    have hlambda := hfirst sharedLambda (by simp)
    have hbound : [sharedCall 2, callName 2, sharedLambda].map c₂.bindings.vertex? =
        [some ⟨2⟩, some ⟨2⟩, some ⟨1⟩] := by
      rw [List.map_congr_left hsecond]
      simp [hcall, hname, hlambda]
    refine ⟨by simp [hcall, hname, hlambda], hbound, ?_, ?_⟩
    · rw [List.map_congr_left fun t ht => lookup_value_eq_ok (hleads t ht).vertex? hkeeps]
      rfl
    · simp only [List.map_cons, List.map_nil, List.cons.injEq, and_true] at hbound ⊢
      obtain ⟨hcall, hname, hlambda⟩ := hbound
      exact ⟨lookup_value_eq_ok hcall (hpeek₂ ⟨2⟩), lookup_value_eq_ok hname (hpeek₂ ⟨2⟩),
        lookup_value_eq_ok hlambda hkeeps⟩
  · obtain ⟨kept, c', hrun, hbuild, -, -, hpeek⟩ :=
      resolve_callVertex ⟨1⟩ (c := new callLanguage none) rfl rfl
    obtain ⟨⟨built, -, -, -, hkept, -, hnew, hleads⟩, -⟩ := resolve_binds_tree_once hrun
    obtain rfl : kept = built := hkept
    obtain ⟨-, hbuilt, -⟩ := (callLanguage.builds_factory callTree 0).unique (builds_callTree 0)
    have hvalue : _ = kept.value := hbuilt.trans (congrArg Prod.fst hbuild)
    have hunbound := hnew fresh_callLanguage fun _ _ => Std.HashMap.getElem?_empty
    have hlookup (t) (ht : t ∈ kept.value.stream) : ((lookup (.value t)).run.run c').1 = .ok kept :=
      lookup_value_eq_ok (hleads hunbound [] t ht).vertex? (hpeek ⟨1⟩)
    refine ⟨kept, c', hrun, ?_⟩
    rw [List.map_congr_left hlookup, ← hvalue, Tree.stream_eq_preorder]
    rfl

end Context

end CodeGraph
