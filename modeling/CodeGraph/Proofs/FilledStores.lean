import CodeGraph.Proofs.Store
import CodeGraph.Store.Filling

/-!
# Stores as lists of records

A store keeps its graph in three parts: the list of the vertices, the place of each in the list, and the
edges under their tails. Whatever is added to it, accepted or refused, the parts go together as if they
were two plain lists, that of the vertices accepted and that of the edges accepted
(`InMemoryStore.Presents`). Filled in place a store is left as it was by what it refuses
(`InMemoryStore.settle`), since all that can be refused is found out before the first part is changed.
`Addition.runAll_presents` puts both together.
-/

namespace CodeGraph

namespace GraphDump

def Names (d : GraphDump) (id : VertexId) : Prop := ∃ v ∈ d.vertices, v.id = id

/-- A graph takes no second vertex of a name, and no edge but between its vertices. -/
def Refuses (d : GraphDump) : Addition → Prop
  | .vertex v => d.Names v.id
  | .edge e => ¬ d.Names e.tail ∨ ¬ d.Names e.head

theorem names_iff {d : GraphDump} {id : VertexId} : d.Names id ↔ id ∈ d.vertices.map (·.id) :=
  List.mem_map.symm

end GraphDump

namespace InMemoryStore
variable {d : GraphDump} {s s' : InMemoryStore}

/-- What a step in place makes of a store if the operation gives this: what it refuses is not done. -/
def settle (s : InMemoryStore) : Except Error InMemoryStore → Except Error Unit × InMemoryStore
  | .ok s' => (.ok (), s')
  | .error e => (.error e, s)

theorem run_insertVertex (s : InMemoryStore) (v : Vertex) :
    (insertVertex v).run.run s = s.settle (s.addVertex v) := by
  unfold insertVertex addVertex
  show (ite _ _ _ : Filling Unit).run.run s = _
  split <;> rfl

theorem run_requireVertex (s : InMemoryStore) (id : VertexId) :
    (requireVertex id).run.run s =
      (if s.contains id = true then .ok () else .error (.notFound "vertex" id.text), s) := by
  unfold requireVertex
  show (ite _ _ _ : Filling Unit).run.run s = _
  split <;> rfl

theorem run_requireVertices (s : InMemoryStore) (ids : List VertexId) :
    (ids.forM requireVertex).run.run s =
      (match ids.find? (fun id => !s.contains id) with
        | some id => .error (.notFound "vertex" id.text)
        | none => .ok (), s) := by
  induction ids with
  | nil => rfl
  | cons id ids ih =>
    show (requireVertex id >>= fun _ => ids.forM requireVertex : Filling Unit).run.run s = _
    rw [ExceptT.run_bind, StateT.run_bind, run_requireVertex, List.find?_cons]
    cases s.contains id with
    | true => exact ih
    | false => rfl

theorem run_insertEdge (s : InMemoryStore) (e : Edge) :
    (insertEdge e).run.run s = s.settle (s.addEdge e) := by
  unfold insertEdge addEdge
  rw [ExceptT.run_bind, StateT.run_bind, run_requireVertices]
  cases [e.tail, e.head].find? (fun id => !s.contains id) <;> rfl

theorem filled_bind (s : InMemoryStore) (m m' : Filling Unit) :
    s.filled (m >>= fun _ => m') = s.filled m >>= fun s' => s'.filled m' := by
  unfold filled
  rw [ExceptT.run_bind, StateT.run_bind]
  rcases m.run.run s with ⟨_ | _, s'⟩ <;> rfl

theorem filled_forM {α : Type} {insert : α → Filling Unit}
    {add : InMemoryStore → α → Except Error InMemoryStore}
    (hadd : ∀ s x, (insert x).run.run s = s.settle (add s x)) (xs : List α) (s : InMemoryStore) :
    s.filled (xs.forM insert) = xs.foldlM add s := by
  have hone (s : InMemoryStore) (x : α) : s.filled (insert x) = add s x := by
    unfold filled
    rw [hadd]
    cases add s x <;> rfl
  induction xs generalizing s with
  | nil => rfl
  | cons x xs ih =>
    show s.filled (insert x >>= fun _ => xs.forM insert) = _
    rw [filled_bind, hone, List.foldlM_cons]
    exact congrArg _ (funext ih)

theorem filled_insertGraph (d : GraphDump) : empty.filled (insertGraph d) = ofDump d := by
  unfold insertGraph ofDump
  rw [filled_bind, filled_forM run_insertVertex]
  exact congrArg _ (funext (filled_forM run_insertEdge d.edges))

/-! ### What is refused -/

namespace Holds

theorem refuses_vertex_iff (h : Holds d s) {v : Vertex} :
    (∃ e, s.addVertex v = .error e) ↔ d.Names v.id := by
  constructor
  · rintro ⟨err, herr⟩
    by_contra hn
    obtain ⟨s', hs', -⟩ := h.exists_vertex (mt GraphDump.names_iff.2 hn)
    cases herr.symm.trans hs'
  · exact fun hn => ⟨_, if_pos (h.contains_iff.2 hn)⟩

theorem refuses_edge_iff (h : Holds d s) {e : Edge} :
    (∃ err, s.addEdge e = .error err) ↔ ¬ d.Names e.tail ∨ ¬ d.Names e.head := by
  constructor
  · rintro ⟨err, herr⟩
    by_contra hn
    rw [not_or, not_not, not_not] at hn
    obtain ⟨s', hs', -⟩ := h.exists_edge (GraphDump.names_iff.1 hn.1) (GraphDump.names_iff.1 hn.2)
    cases herr.symm.trans hs'
  · intro hn
    cases hadd : s.addEdge e with
    | error err => exact ⟨err, rfl⟩
    | ok s' =>
      obtain ⟨ht, hh, -⟩ := addEdge_eq_ok hadd
      exact (hn.elim (· (h.contains_iff.1 ht)) (· (h.contains_iff.1 hh))).elim

theorem of_vertices {vs : List Vertex} (h : Holds d s) (hs : vs.foldlM addVertex s = .ok s') :
    Holds ⟨d.vertices ++ vs, d.edges⟩ s' := by
  induction vs generalizing d s with
  | nil =>
    cases hs
    rwa [List.append_nil]
  | cons v vs ih =>
    rw [List.foldlM_cons] at hs
    cases hadd : s.addVertex v with
    | error e =>
      rw [hadd] at hs
      cases hs
    | ok s₁ =>
      rw [hadd] at hs
      rw [List.append_cons]
      exact ih (h.vertex hadd) hs

theorem of_edges {es : List Edge} (h : Holds d s) (hs : es.foldlM addEdge s = .ok s') :
    Holds ⟨d.vertices, d.edges ++ es⟩ s' := by
  induction es generalizing d s with
  | nil =>
    cases hs
    rwa [List.append_nil]
  | cons e es ih =>
    rw [List.foldlM_cons] at hs
    cases hadd : s.addEdge e with
    | error err =>
      rw [hadd] at hs
      cases hs
    | ok s₁ =>
      rw [hadd] at hs
      rw [List.append_cons]
      exact ih (h.edge hadd) hs

theorem of_ofDump (hs : ofDump d = .ok s) : Holds d s := by
  unfold ofDump at hs
  cases hvertices : d.vertices.foldlM addVertex InMemoryStore.empty with
  | error e =>
    rw [hvertices] at hs
    cases hs
  | ok s₁ =>
    rw [hvertices] at hs
    exact (Holds.empty.of_vertices hvertices).of_edges hs

end Holds

/-- A graph can be filled in if its vertices have different names and its edges go between them. -/
theorem exists_ofDump_iff : (∃ s, ofDump d = .ok s) ↔
    (d.vertices.map (·.id)).Nodup ∧ ∀ e ∈ d.edges, d.Names e.tail ∧ d.Names e.head := by
  constructor
  · rintro ⟨s, hs⟩
    have h := Holds.of_ofDump hs
    exact ⟨h.nodup_ids, fun _ => h.ends⟩
  · rintro ⟨hids, hends⟩
    obtain ⟨s, hs, -⟩ := exists_ofDump hids fun e he =>
      ⟨GraphDump.names_iff.1 (hends e he).1, GraphDump.names_iff.1 (hends e he).2⟩
    exact ⟨s, hs⟩

/-! ### What is shown -/

theorem flatMap_pages (s : InMemoryStore) (limit n : Nat) :
    (List.range n).flatMap (fun i => s.page (i * limit) limit) = s.vertices.toList.take (n * limit) := by
  induction n with
  | zero => rw [Nat.zero_mul]; rfl
  | succ n ih =>
    rw [List.range_succ, List.flatMap_append, ih, List.flatMap_singleton, Nat.succ_mul, List.take_add]
    rfl

/-- The store answers every request from the two lists of a graph: it finds a vertex by its name, gives
the edges that leave it, and pages of any one size make up the list of the vertices, if they are taken up
to the first empty one. The place that it has for a name is that of the vertex of this name. -/
structure Presents (s : InMemoryStore) (d : GraphDump) : Prop where
  vertex : ∀ id, ∃ found, s.toStore.vertex id = .ok found ∧
    ∀ v, found = some v ↔ v ∈ d.vertices ∧ v.id = id
  outEdges : ∀ id label, s.toStore.outEdges id label =
    .ok (d.edges.filter fun e => e.tail == id && label.all (e.label == ·))
  pages : ∀ limit, 0 < limit → ∃ (page : Nat → List Vertex) (n : Nat),
    (∀ i, s.toStore.vertices (i * limit) limit = .ok (page i)) ∧
      (∀ i < n, page i ≠ []) ∧ page n = [] ∧ (List.range n).flatMap page = d.vertices
  place : ∀ (id : VertexId) (i : Nat), s.positions[id]? = some i → ∃ v, s.vertices[i]? = some v ∧ v.id = id

theorem Holds.presents (h : Holds d s) : s.Presents d where
  vertex id := by
    refine ⟨s.vertex? id, rfl, fun v => ?_⟩
    rw [h.vertex?_eq]
    constructor
    · intro hv
      exact ⟨List.mem_of_find?_eq_some hv, (Catalog.ofListing d.vertices).id_of_find id v hv⟩
    · rintro ⟨hv, rfl⟩
      exact Catalog.find_ofListing h.nodup_ids hv
  outEdges id label := congrArg Except.ok (h.outEdges_eq id label)
  pages limit hl := by
    -- as many pages as there are with a vertex on them
    let n := (s.size + (limit - 1)) / limit
    have hn (i : Nat) : i < n ↔ i * limit < s.size := by
      rw [← Nat.succ_le_iff, Nat.le_div_iff_mul_le hl, Nat.succ_mul]
      omega
    refine ⟨fun i => s.page (i * limit) limit, n, fun i => rfl, fun i hi hnil => ?_, ?_, ?_⟩
    · change (s.vertices.toList.drop (i * limit)).take limit = [] at hnil
      rw [List.take_eq_nil_iff, List.drop_eq_nil_iff] at hnil
      exact hnil.elim (Nat.ne_of_gt hl) (Nat.not_le_of_lt ((hn i).1 hi))
    · exact page_of_size_le s limit (Nat.le_of_not_lt ((not_congr (hn n)).1 (Nat.lt_irrefl n)))
    · rw [flatMap_pages, ← h.vertices_eq]
      exact List.take_of_length_le (Nat.le_of_not_lt ((not_congr (hn n)).1 (Nat.lt_irrefl n)))
  place id i hi := by
    rw [h.positions_eq, List.findIdx?_eq_some_iff_getElem] at hi
    obtain ⟨hlt, hid, -⟩ := hi
    refine ⟨d.vertices[i], ?_, eq_of_beq hid⟩
    rw [← Array.getElem?_toList, h.vertices_eq, List.getElem?_eq_getElem hlt]

end InMemoryStore

namespace Addition
open InMemoryStore
variable {d : GraphDump} {s : InMemoryStore} {x : Addition}

def extend (d d' : GraphDump) : GraphDump := ⟨d.vertices ++ d'.vertices, d.edges ++ d'.edges⟩

theorem extend_accepted_append (log log' : List (Addition × Except Error Unit)) :
    extend d (accepted (log ++ log')) = extend (extend d (accepted log)) (accepted log') := by
  unfold accepted extend
  rw [List.filterMap_append, List.filterMap_append, List.append_assoc, List.append_assoc]

theorem extend_accepted_nil (d : GraphDump) : extend d (accepted []) = d :=
  congrArg₂ GraphDump.mk (List.append_nil _) (List.append_nil _)

theorem extend_accepted_vertex (d : GraphDump) (v : Vertex) :
    extend d (accepted [(vertex v, .ok ())]) = ⟨d.vertices ++ [v], d.edges⟩ :=
  congrArg (GraphDump.mk _) (List.append_nil _)

theorem extend_accepted_edge (d : GraphDump) (e : Edge) :
    extend d (accepted [(edge e, .ok ())]) = ⟨d.vertices, d.edges ++ [e]⟩ :=
  congrArg (GraphDump.mk · _) (List.append_nil _)

theorem extend_accepted_refused (d : GraphDump) (x : Addition) (e : Error) :
    extend d (accepted [(x, .error e)]) = d := by
  cases x <;> exact congrArg₂ GraphDump.mk (List.append_nil _) (List.append_nil _)

/-- What comes of an addition to the store of a graph: it is refused exactly if the graph refuses it, and
then nothing is changed. Otherwise the store is that of the graph with the record. -/
structure Adds (d : GraphDump) (s : InMemoryStore) (x : Addition) (out : Except Error Unit)
    (s' : InMemoryStore) : Prop where
  holds : Holds (extend d (accepted [(x, out)])) s'
  refused : (∃ e, out = .error e) ↔ d.Refuses x
  unchanged : ∀ e, out = .error e → s' = s

theorem adds_of_settle {add : Except Error InMemoryStore} (h : Holds d s)
    (hrun : x.run.run.run s = s.settle add)
    (hok : ∀ s', add = .ok s' → Holds (extend d (accepted [(x, .ok ())])) s')
    (hrefused : (∃ e, add = .error e) ↔ d.Refuses x) :
    wp x.run.run (fun out s' => Adds d s x out s') s := by
  unfold wp
  rw [hrun]
  cases add with
  | ok s' =>
    refine ⟨hok s' rfl, Iff.trans ⟨?_, ?_⟩ hrefused, fun _ he => nomatch he⟩
    · rintro ⟨e, he⟩
      cases he
    · rintro ⟨e, he⟩
      cases he
  | error e =>
    refine ⟨?_, Iff.trans ⟨fun _ => ⟨e, rfl⟩, fun _ => ⟨e, rfl⟩⟩ hrefused, fun _ _ => rfl⟩
    show Holds (extend d (accepted [(x, .error e)])) s
    rw [extend_accepted_refused]
    exact h

theorem wp_run (h : Holds d s) (x : Addition) : wp x.run.run (fun out s' => Adds d s x out s') s := by
  cases x with
  | vertex v =>
    refine adds_of_settle h (s.run_insertVertex v) (fun s' hs' => ?_) h.refuses_vertex_iff
    rw [extend_accepted_vertex]
    exact h.vertex hs'
  | edge e =>
    refine adds_of_settle h (s.run_insertEdge e) (fun s' hs' => ?_) h.refuses_edge_iff
    rw [extend_accepted_edge]
    exact h.edge hs'

theorem wp_runAll (h : Holds d s) (xs : List Addition) :
    wp (runAll xs) (fun log s' => log.map Prod.fst = xs ∧ Holds (extend d (accepted log)) s') s := by
  unfold runAll
  induction xs generalizing d s with
  | nil =>
    rw [← extend_accepted_nil d] at h
    exact ⟨rfl, h⟩
  | cons x xs ih =>
    rw [List.mapM_cons, wp_bind, wp_bind]
    refine wp_mono (wp_run h x) fun out s₁ hadds => ?_
    rw [wp_pure, wp_bind]
    refine wp_mono (ih hadds.holds) fun log s' hlog => ?_
    obtain ⟨hxs, hs'⟩ := hlog
    refine ⟨congrArg (x :: ·) hxs, ?_⟩
    rw [← extend_accepted_append] at hs'
    exact hs'

/-- Whatever has been added to an empty store, accepted or refused, it answers from the lists of the
vertices and edges that were accepted. A further record is refused if it is a vertex whose name there is
already, or an edge one of whose ends there is not, and then nothing is changed. A whole graph can be
filled in if its vertices have different names and its edges go between them. -/
theorem runAll_presents (xs : List Addition) :
    (∃ log s, (runAll xs).run .empty = (log, s) ∧ log.map Prod.fst = xs ∧ s.Presents (accepted log) ∧
      ∀ x : Addition, ∃ out s', x.run.run.run s = (out, s') ∧
        ((∃ e, out = .error e) ↔ (accepted log).Refuses x) ∧ ∀ e, out = .error e → s' = s) ∧
    ∀ d : GraphDump,
      ((∃ s, InMemoryStore.empty.filled (insertGraph d) = .ok s) ↔
        (d.vertices.map (·.id)).Nodup ∧ ∀ e ∈ d.edges, d.Names e.tail ∧ d.Names e.head) ∧
      ∀ s, InMemoryStore.empty.filled (insertGraph d) = .ok s → s.Presents d := by
  constructor
  · obtain ⟨hxs, h⟩ := wp_runAll Holds.empty xs
    refine ⟨_, _, rfl, hxs, Holds.presents h, fun x => ?_⟩
    have hadds := wp_run h x
    exact ⟨_, _, rfl, hadds.refused, hadds.unchanged⟩
  · intro d
    rw [filled_insertGraph]
    exact ⟨exists_ofDump_iff, fun s hs => (Holds.of_ofDump hs).presents⟩

end Addition

end CodeGraph
