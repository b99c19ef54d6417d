import Mathlib.Data.List.Induction
import CodeGraph.Proofs.Faithful
import CodeGraph.Store.Memory

/-!
# What stores say about their graphs

A store that cuts a listing into pages (`GraphStore.Cuts`) shows the vertices of the listing in
order. `InMemoryStore.Holds` is the relation between a graph as a record and the store to which its
vertices and edges have been added, in any order that the store accepts. Such a store lists the
vertices, each name once, finds each by its name, and gives the edges that leave it.
-/

namespace CodeGraph

/-- Every page before the end of the listing is rejected or has some of the next vertices. -/
structure GraphStore.Cuts (s : GraphStore) (listing : List Vertex) : Prop where
  page : ∀ offset limit page, 0 < limit → s.vertices offset limit = .ok page →
    page <+: listing.drop offset ∧ page.length ≤ limit
  proceeds : ∀ offset limit, 0 < limit → offset < listing.length → s.vertices offset limit ≠ .ok []

/-- The vertices of a listing by name. -/
def Catalog.ofListing (listing : List Vertex) : Catalog where
  find id := listing.find? fun v => v.id == id
  id_of_find id _ h := eq_of_beq (List.find?_some (p := fun v : Vertex => v.id == id) h)

theorem Catalog.find_ofListing {listing : List Vertex} (hids : (listing.map (·.id)).Nodup) {v : Vertex}
    (hv : v ∈ listing) : (ofListing listing).find v.id = some v := by
  show listing.find? (fun u => u.id == v.id) = some v
  induction listing with
  | nil => cases hv
  | cons u us ih =>
    rw [List.map_cons, List.nodup_cons] at hids
    rw [List.find?_cons]
    rcases List.mem_cons.1 hv with rfl | hv
    · rw [beq_self_eq_true]
    · have hne : u.id ≠ v.id := fun he => hids.1 (List.mem_map.2 ⟨v, hv, he.symm⟩)
      rw [beq_false_of_ne hne]
      exact ih hids.2 hv

namespace InMemoryStore

/-- The store to which the vertices and the edges of a graph have been added. -/
inductive Holds : GraphDump → InMemoryStore → Prop where
  | empty : Holds ⟨[], []⟩ .empty
  | vertex {d : GraphDump} {s s' : InMemoryStore} {v : Vertex} : Holds d s →
      s.addVertex v = .ok s' → Holds ⟨d.vertices ++ [v], d.edges⟩ s'
  | edge {d : GraphDump} {s s' : InMemoryStore} {e : Edge} : Holds d s →
      s.addEdge e = .ok s' → Holds ⟨d.vertices, d.edges ++ [e]⟩ s'

variable {d : GraphDump} {s s' : InMemoryStore} {v : Vertex} {e : Edge}

theorem addVertex_eq_ok (h : s.addVertex v = .ok s') :
    s.positions[v.id]? = none ∧ s' = { s with
      vertices := s.vertices.push v
      positions := s.positions.insert v.id s.vertices.size } := by
  unfold addVertex contains at h
  split at h
  · cases h
  · next hc =>
    cases h
    rw [Std.HashMap.contains_eq_isSome_getElem?] at hc
    exact ⟨Option.not_isSome_iff_eq_none.1 hc, rfl⟩

theorem addEdge_eq_ok (h : s.addEdge e = .ok s') :
    s.contains e.tail = true ∧ s.contains e.head = true ∧
      s' = { s with out := s.out.insert e.tail ((s.out.getD e.tail #[]).push e) } := by
  unfold addEdge at h
  split at h
  · cases h
  · next hf =>
    cases h
    have hall := List.find?_eq_none.1 hf
    refine ⟨?_, ?_, rfl⟩
    · simpa using hall e.tail (by simp)
    · simpa using hall e.head (by simp)

namespace Holds

theorem vertices_eq (h : Holds d s) : s.vertices.toList = d.vertices := by
  induction h with
  | empty => rfl
  | vertex _ hv ih =>
    obtain ⟨-, rfl⟩ := addVertex_eq_ok hv
    rw [Array.toList_push, ih]
  | edge _ he ih =>
    obtain ⟨-, -, rfl⟩ := addEdge_eq_ok he
    exact ih

theorem positions_eq (h : Holds d s) (id : VertexId) :
    s.positions[id]? = d.vertices.findIdx? fun v => v.id == id := by
  induction h with
  | empty => exact Std.HashMap.getElem?_empty
  | @vertex d s s' v h hv ih =>
    have hlen : s.vertices.size = d.vertices.length := by
      rw [← h.vertices_eq, Array.length_toList]
    obtain ⟨hnone, rfl⟩ := addVertex_eq_ok hv
    rw [Std.HashMap.getElem?_insert, List.findIdx?_append, ← ih, hlen]
    by_cases hid : v.id = id
    · subst hid
      rw [if_pos (beq_self_eq_true _), hnone, List.findIdx?_cons, if_pos (beq_self_eq_true _)]
      show some _ = some (0 + _)
      rw [Nat.zero_add]
    · rw [if_neg (by simpa using hid), List.findIdx?_cons, beq_false_of_ne hid]
      cases s.positions[id]? <;> rfl
  | edge _ he ih =>
    obtain ⟨-, -, rfl⟩ := addEdge_eq_ok he
    exact ih

theorem vertex?_eq (h : Holds d s) (id : VertexId) :
    s.vertex? id = (Catalog.ofListing d.vertices).find id := by
  unfold InMemoryStore.vertex?
  show _ = d.vertices.find? fun v => v.id == id
  rw [h.positions_eq, List.find?_eq_bind_findIdx?_getElem?, ← h.vertices_eq]
  simp only [Array.getElem?_toList]

theorem contains_iff (h : Holds d s) {id : VertexId} :
    s.contains id = true ↔ ∃ v ∈ d.vertices, v.id = id := by
  unfold InMemoryStore.contains
  rw [Std.HashMap.contains_eq_isSome_getElem?, h.positions_eq, List.findIdx?_isSome]
  simp

theorem nodup_ids (h : Holds d s) : (d.vertices.map (·.id)).Nodup := by
  induction h with
  | empty => exact List.nodup_nil
  | @vertex d s s' v h hv ih =>
    obtain ⟨hnone, rfl⟩ := addVertex_eq_ok hv
    rw [List.map_append, List.nodup_append]
    refine ⟨ih, List.pairwise_singleton .., fun a ha b hb heq => ?_⟩
    rw [List.map_singleton, List.mem_singleton] at hb
    have hc : s.contains v.id = true := by
      rw [heq, hb] at ha
      exact h.contains_iff.2 (List.mem_map.1 ha)
    unfold InMemoryStore.contains at hc
    rw [Std.HashMap.contains_eq_isSome_getElem?, hnone] at hc
    cases hc
  | edge _ he ih => exact ih

theorem outEdges_eq (h : Holds d s) (id : VertexId) (label : Option String) :
    s.outEdges id label = d.edges.filter fun e => e.tail == id && label.all (e.label == ·) := by
  have hout : (s.out.getD id #[]).toList = d.edges.filter fun e => e.tail == id := by
    induction h with
    | empty => simp [InMemoryStore.empty]
    | vertex _ hv ih =>
      obtain ⟨-, rfl⟩ := addVertex_eq_ok hv
      exact ih
    | @edge d s s' e h he ih =>
      obtain ⟨-, -, rfl⟩ := addEdge_eq_ok he
      rw [Std.HashMap.getD_insert, List.filter_append, ← ih]
      by_cases hid : e.tail = id
      · subst hid
        rw [if_pos (beq_self_eq_true _), Array.toList_push]
        simp
      · rw [if_neg (by simpa using hid)]
        simp [hid]
  unfold InMemoryStore.outEdges
  rw [hout, List.filter_filter]
  exact List.filter_congr fun e _ => Bool.and_comm ..

theorem ends (h : Holds d s) (he : e ∈ d.edges) :
    (∃ v ∈ d.vertices, v.id = e.tail) ∧ ∃ v ∈ d.vertices, v.id = e.head := by
  induction h with
  | empty => cases he
  | vertex _ _ ih =>
    obtain ⟨⟨t, ht, htid⟩, u, hu, huid⟩ := ih he
    exact ⟨⟨t, List.mem_append_left _ ht, htid⟩, u, List.mem_append_left _ hu, huid⟩
  | edge h hadd ih =>
    rcases List.mem_append.1 he with he | he
    · exact ih he
    · rw [List.mem_singleton] at he
      subst he
      obtain ⟨ht, hh, -⟩ := addEdge_eq_ok hadd
      exact ⟨h.contains_iff.1 ht, h.contains_iff.1 hh⟩

theorem exists_vertex (h : Holds d s) (hnew : v.id ∉ d.vertices.map (·.id)) :
    ∃ s', s.addVertex v = .ok s' ∧ Holds ⟨d.vertices ++ [v], d.edges⟩ s' := by
  have hc : ¬ s.contains v.id = true := fun hc => hnew (List.mem_map.2 (h.contains_iff.1 hc))
  exact ⟨_, if_neg hc, h.vertex (if_neg hc)⟩

theorem exists_edge (h : Holds d s) (ht : e.tail ∈ d.vertices.map (·.id))
    (hh : e.head ∈ d.vertices.map (·.id)) :
    ∃ s', s.addEdge e = .ok s' ∧ Holds ⟨d.vertices, d.edges ++ [e]⟩ s' := by
  have hfind : [e.tail, e.head].find? (fun id => !s.contains id) = none := by
    simp [h.contains_iff.2 (List.mem_map.1 ht), h.contains_iff.2 (List.mem_map.1 hh)]
  have hadd : s.addEdge e =
      .ok { s with out := s.out.insert e.tail ((s.out.getD e.tail #[]).push e) } := by
    unfold addEdge
    rw [hfind]
  exact ⟨_, hadd, h.edge hadd⟩

theorem exists_vertices {vs : List Vertex} (h : Holds d s)
    (hids : ((d.vertices ++ vs).map (·.id)).Nodup) :
    ∃ s', vs.foldlM addVertex s = .ok s' ∧ Holds ⟨d.vertices ++ vs, d.edges⟩ s' := by
  induction vs generalizing d s with
  | nil => exact ⟨s, rfl, by rwa [List.append_nil]⟩
  | cons v vs ih =>
    have hnew : v.id ∉ d.vertices.map (·.id) := fun hm => by
      rw [List.map_append, List.nodup_append] at hids
      exact hids.2.2 _ hm _ (List.mem_cons_self ..) rfl
    obtain ⟨s₁, hadd, h₁⟩ := h.exists_vertex hnew
    rw [List.append_cons] at hids
    obtain ⟨s', hs', h'⟩ := ih h₁ hids
    rw [List.foldlM_cons, hadd, List.append_cons]
    exact ⟨s', hs', h'⟩

theorem exists_edges {es : List Edge} (h : Holds d s)
    (hends : ∀ e ∈ es, e.tail ∈ d.vertices.map (·.id) ∧ e.head ∈ d.vertices.map (·.id)) :
    ∃ s', es.foldlM addEdge s = .ok s' ∧ Holds ⟨d.vertices, d.edges ++ es⟩ s' := by
  induction es generalizing d s with
  | nil => exact ⟨s, rfl, by rwa [List.append_nil]⟩
  | cons e es ih =>
    obtain ⟨he, hes⟩ := List.forall_mem_cons.1 hends
    obtain ⟨s₁, hadd, h₁⟩ := h.exists_edge he.1 he.2
    obtain ⟨s', hs', h'⟩ := ih h₁ hes
    rw [List.foldlM_cons, hadd, List.append_cons]
    exact ⟨s', hs', h'⟩

end Holds

theorem exists_ofDump (hids : (d.vertices.map (·.id)).Nodup)
    (hends : ∀ e ∈ d.edges, e.tail ∈ d.vertices.map (·.id) ∧ e.head ∈ d.vertices.map (·.id)) :
    ∃ s, ofDump d = .ok s ∧ Holds d s := by
  obtain ⟨s₁, hvertices, h₁⟩ := Holds.empty.exists_vertices hids
  obtain ⟨s, hedges, h⟩ := h₁.exists_edges hends
  refine ⟨s, ?_, h⟩
  rw [ofDump, hvertices]
  exact hedges

theorem exists_holds (hids : (d.vertices.map (·.id)).Nodup)
    (hends : ∀ e ∈ d.edges, e.tail ∈ d.vertices.map (·.id) ∧ e.head ∈ d.vertices.map (·.id)) :
    ∃ s, Holds d s :=
  (exists_ofDump hids hends).imp fun _ h => h.2

theorem cuts_toStore (s : InMemoryStore) : s.toStore.Cuts s.vertices.toList where
  page offset limit page _ hp := by
    cases hp
    exact ⟨List.take_prefix .., List.length_take_le ..⟩
  proceeds offset limit hl hlt hp := by
    have hnil : s.page offset limit = [] := Except.ok.inj hp
    rw [page, List.take_eq_nil_iff, List.drop_eq_nil_iff] at hnil
    omega

end InMemoryStore

end CodeGraph
