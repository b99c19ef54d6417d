import CodeGraph.Proofs.Reading
import CodeGraph.Proofs.Registry

/-!
# Contexts that hold what the vertices stand for

A `Catalog` gives the vertices of a graph by name. A context is faithful to it when its language
builds fresh values and every registered pair is what the catalog's vertex of that name stands for.
Looking up, resolving and registering the catalog's vertices keep a context faithful, so whatever
has been registered, kept or forgotten before, a pair that a context gives for a vertex has the node
and, as it is seen, the value that `Catalog.read` says.
-/

namespace CodeGraph

/-- The vertices of a graph by name. -/
structure Catalog where
  find : VertexId → Option Vertex
  id_of_find : ∀ id v, find id = some v → v.id = id

/-- What the vertex of a name stands for, if there is one and it can be resolved. -/
def Catalog.read (k : Catalog) (l : Language) (id : VertexId) : Option Reading :=
  (k.find id).bind l.read

theorem Catalog.read_of_find {k : Catalog} {l : Language} {id : VertexId} {v : Vertex}
    (h : k.find id = some v) : k.read l id = l.read v := by
  unfold Catalog.read
  rw [h]
  rfl

namespace Context
variable {k : Catalog} {c c' c'' : Context} {id : VertexId} {r : Registration}

/-- Every registered pair is what the vertex of its name stands for. -/
structure Faithful (k : Catalog) (c : Context) : Prop where
  fresh : c.language.Fresh
  unbuilt : c.bindings.Unbuilt
  room : c.registry.capacity ≠ some 0
  entry : ∀ id r, c.registry.peek? id = some r → k.find id = some r.node.vertex ∧ r.Faithful c

/-- `c'` is `c` after entries of the registry have been used. -/
structure Alike (c c' : Context) : Prop where
  language : c'.language = c.language
  bindings : c'.bindings = c.bindings
  staged : c'.staged = c.staged
  notices : c'.notices = c.notices
  capacity : c'.registry.capacity = c.registry.capacity
  peek? : ∀ id, c'.registry.peek? id = c.registry.peek? id

theorem Alike.refl (c : Context) : c.Alike c := ⟨rfl, rfl, rfl, rfl, rfl, fun _ => rfl⟩

theorem Alike.trans (h : c.Alike c') (h' : c'.Alike c'') : c.Alike c'' :=
  ⟨h'.language.trans h.language, h'.bindings.trans h.bindings, h'.staged.trans h.staged,
    h'.notices.trans h.notices, h'.capacity.trans h.capacity, fun id => (h'.peek? id).trans (h.peek? id)⟩

theorem Alike.grows (h : c.Alike c') : c.Grows c' :=
  ⟨h.language, by rw [h.bindings]; exact .refl _, fun hu => by rw [h.bindings]; exact hu, h.capacity,
    fun _ id hid => by unfold Registry.contains at hid ⊢; rw [h.peek?]; exact hid⟩

namespace Faithful

theorem of_entries (h : c.Faithful k) (hg : c.Grows c')
    (he : ∀ id r, c'.registry.peek? id = some r → c.registry.peek? id = some r) : c'.Faithful k where
  fresh := by rw [hg.language]; exact h.fresh
  unbuilt := hg.unbuilt h.unbuilt
  room := by rw [hg.capacity]; exact h.room
  entry id r hr := ⟨(h.entry id r (he id r hr)).1, (h.entry id r (he id r hr)).2.mono hg⟩

theorem alike (h : c.Faithful k) (ha : c.Alike c') : c'.Faithful k :=
  h.of_entries ha.grows fun id r hr => by rwa [ha.peek?] at hr

theorem read (h : c.Faithful k) (hr : c.registry.peek? id = some r) :
    k.read c.language id = some ⟨r.node, c.bindings.view r.value⟩ := by
  obtain ⟨hfind, hread⟩ := h.entry id r hr
  rw [Catalog.read_of_find hfind]
  exact hread

theorem id_eq (h : c.Faithful k) (hr : c.registry.peek? id = some r) : r.id = id :=
  k.id_of_find _ _ (h.entry id r hr).1

theorem owns (h : c.Faithful k) (hr : c.registry.peek? id = some r) :
    c.bindings.Owns id r.value := by
  rw [← h.id_eq hr]
  exact (h.entry id r hr).2.owns

end Faithful

theorem faithful_of_nil (hl : c.language.Fresh) (hu : c.bindings.Unbuilt)
    (hroom : c.registry.capacity ≠ some 0) (hnil : c.registry.entries = []) : c.Faithful k where
  fresh := hl
  unbuilt := hu
  room := hroom
  entry id r h := by
    unfold Registry.peek? at h
    rw [hnil] at h
    cases h

theorem faithful_new {l : Language} (hl : l.Fresh) (capacity : Option Nat) :
    (new l capacity).Faithful k := by
  refine faithful_of_nil hl (fun n _ => Std.HashMap.getElem?_empty) ?_ rfl
  show capacity.filter (· ≠ 0) ≠ some 0
  simp [Option.filter_eq_some_iff]

/-! ### Steps -/

theorem wp_cached? (c : Context) (id : VertexId) :
    wp (cached? id) (fun found c' => found = c.registry.peek? id ∧ c.Alike c') c :=
  ⟨Registry.touch?_fst .., rfl, rfl, rfl, rfl, Registry.capacity_touch? ..,
    Registry.peek?_touch? c.registry id⟩

theorem wp_stage {Q : Unit → Context → Prop} :
    wp (stage r) Q c ↔ Q () { c with staged := c.staged.insert r.id r } := Iff.rfl

theorem wp_unstage {Q : Unit → Context → Prop} :
    wp (unstage id) Q c ↔ Q () { c with staged := c.staged.erase id } := Iff.rfl

/-- Registering a faithful pair of a catalog's vertex keeps the context faithful, and what is kept
for the vertex is no different. -/
theorem wp_register (h : c.Faithful k) (hr : r.Faithful c) (hfind : k.find r.id = some r.node.vertex) :
    wp (register r) (fun kept c' => c.Grows c' ∧ c'.Faithful k ∧ c'.staged = c.staged ∧
      c'.registry.peek? r.id = some kept ∧ kept.node = r.node ∧
      c'.bindings.view kept.value = c.bindings.view r.value) c := by
  have hself : (c.registry.register r).2.peek? r.id = some (c.registry.register r).1 :=
    Registry.peek?_register_self h.room
  have hg : c.Grows { c with registry := (c.registry.register r).2 } :=
    ⟨rfl, .refl _, fun hu => hu, Registry.capacity_register .., fun hn _ hid =>
      Registry.contains_register hn hid⟩
  have hread : k.read c.language r.id = some ⟨r.node, c.bindings.view r.value⟩ := by
    rw [Catalog.read_of_find hfind]; exact hr
  have hf : Faithful k { c with registry := (c.registry.register r).2 } := by
    refine ⟨h.fresh, h.unbuilt, by rw [hg.capacity]; exact h.room, fun id x hx => ?_⟩
    rcases Registry.of_peek?_register hx with ⟨rfl, rfl⟩ | hx
    · cases hp : c.registry.peek? r.id with
      | none => rw [Registry.register_of_none hp]; exact ⟨hfind, hr⟩
      | some old =>
        rw [Registry.register_of_peek? hp]
        exact h.entry _ _ hp
    · exact h.entry id x hx
  have hkept := hf.read hself
  rw [show Context.language _ = c.language from rfl, hread, Option.some.injEq, Reading.mk.injEq]
    at hkept
  exact ⟨hg, hf, rfl, hself, hkept.1.symm, hkept.2.symm⟩

theorem resolve_store (v : Vertex) :
    resolve v .store = resolve v .bypass >>= fun r => liftM (register r) := by
  unfold resolve
  simp only [bind_assoc, pure_bind]

theorem wpE_resolve_store (h : c.Faithful k) {v : Vertex} (hv : k.find v.id = some v) :
    wpE (resolve v .store)
      (fun kept c' => c.Grows c' ∧ c'.Faithful k ∧ c'.registry.peek? v.id = some kept)
      (fun _ c' => c' = c ∧ k.read c.language v.id = none) c := by
  rw [resolve_store, wpE_bind]
  refine wpE_mono (wpE_resolve_bypass h.fresh h.unbuilt v) (fun r c' hr => ?_) fun _ _ he => ?_
  · obtain ⟨hg, hreg, -, hnode, hfaith⟩ := hr
    have hid : r.id = v.id := congrArg Vertex.id hnode
    have hf : c'.Faithful k := h.of_entries hg fun id x hx => by rwa [hreg] at hx
    rw [wpE_lift]
    refine wp_mono (wp_register hf hfaith (by rw [hid, hnode]; exact hv)) fun kept c'' hk => ?_
    exact ⟨hg.trans hk.1, hk.2.1, by rw [← hid]; exact hk.2.2.2.1⟩
  · rw [Catalog.read_of_find hv]
    exact he

theorem wp_valueOf?_vertex (h : c.Faithful k) {v : Vertex} (hv : k.find v.id = some v) :
    wp (valueOf? (.vertex v)) (fun found c' => c.Grows c' ∧ c'.Faithful k ∧
      match k.read c.language v.id with
      | none => found = none
      | some _ => ∃ r, found = some r.value ∧ c'.registry.peek? v.id = some r) c := by
  unfold valueOf? valueOf lookup
  rw [wp_bind, wp_run, wpE_bind, wpE_bind, wpE_lift]
  refine wp_mono (wp_cached? c v.id) fun found c' hc => ?_
  obtain ⟨rfl, ha⟩ := hc
  have hf := h.alike ha
  cases hp : c.registry.peek? v.id with
  | some r =>
    refine ⟨ha.grows, hf, ?_⟩
    rw [h.read hp]
    exact ⟨r, rfl, (ha.peek? v.id).trans hp⟩
  | none =>
    refine wpE_mono (wpE_resolve_store hf hv) (fun r c'' hr => ?_) fun e c'' he => ?_
    · obtain ⟨hg, hf', hr⟩ := hr
      refine ⟨ha.grows.trans hg, hf', ?_⟩
      rw [show k.read c.language v.id = k.read c''.language v.id by
        rw [hg.language, ha.language], hf'.read hr]
      exact ⟨r, rfl, hr⟩
    · obtain ⟨rfl, he⟩ := he
      rw [ha.language] at he
      refine ⟨ha.grows, hf, ?_⟩
      rw [he]
      rfl

theorem wpE_valueOf_id (hr : c.registry.peek? id = some r) :
    wpE (valueOf (.id id)) (fun v c' => v = r.value ∧ c.Alike c') Never c := by
  unfold valueOf lookup known
  rw [wpE_bind, wpE_bind, wpE_lift]
  refine wp_mono (wp_cached? c id) fun found c' hc => ?_
  obtain ⟨rfl, ha⟩ := hc
  rw [hr]
  exact ⟨rfl, ha⟩

theorem wpE_vertexOf {v : Value} (hv : c.bindings.Owns id v) :
    wpE (vertexOf v) (fun x c' => x = id ∧ c' = c) Never c := by
  unfold vertexOf
  rw [wpE_bind, wpE_get, hv.vertex?]
  exact ⟨rfl, rfl⟩

/-- The node that lookups find for a vertex, be it registered or staged. -/
def nodeAt? (c : Context) (id : VertexId) : Option GraphNode :=
  ((c.registry.peek? id).or c.staged[id]?).map (·.node)

theorem wp_nodeOf?_value {v : Value} {n : GraphNode} (hv : c.bindings.Owns id v)
    (hn : c.nodeAt? id = some n) :
    wp (nodeOf? (.value v)) (fun found c' => found = some n ∧ c.Alike c') c := by
  unfold nodeOf? nodeOf lookup known
  rw [wp_bind, wp_run, wpE_bind, wpE_bind]
  refine wpE_of_never (wpE_vertexOf hv) fun x c' hx => ?_
  obtain ⟨rfl, rfl⟩ := hx
  rw [wpE_bind, wpE_lift]
  refine wp_mono (wp_cached? c' x) fun found c'' hc => ?_
  obtain ⟨rfl, ha⟩ := hc
  unfold nodeAt? at hn
  cases hp : c'.registry.peek? x with
  | some r =>
    rw [hp] at hn
    exact ⟨hn, ha⟩
  | none =>
    rw [hp] at hn
    show wpE (_ >>= _) _ _ _
    rw [wpE_bind, wpE_get, ha.staged]
    cases hs : c'.staged[x]? with
    | none => rw [hs] at hn; cases hn
    | some r => rw [hs] at hn; exact ⟨hn, ha⟩

end Context

end CodeGraph
