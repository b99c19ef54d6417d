import CodeGraph.Proofs.TwinStages

/-!
# Bounded and unbounded registries

A registry with a capacity forgets what has not been used for long, and what it has forgotten is
resolved again when it is next met, to other objects. That cannot be seen in a query whose filters ask
for no nodes: its steps succeed or fail alike, and its tables and its result, as they are seen, are the
same whatever the capacities are.
-/

namespace CodeGraph

/-! ### Queries as they are seen -/

inductive SeenColumn where
  | data (name : String) (indexed : Bool) (cells : List (Cell Identity))
  | predicate (name : String) (accepts : ValuePredicate)
  | any (name : String) (cells : List (Cell Identity))

structure SeenTable where
  name : String
  size : Int
  columns : List SeenColumn

structure SeenQuery where
  /-- The live tables, each with its alias. -/
  tables : List (String × SeenTable)
  result : Option SeenTable

variable {b b' : Bindings} {V : Value → Value → Prop}

namespace Column

def seen (b : Bindings) : Column → SeenColumn
  | data c => .data c.name c.hasIndex (c.cells.toList.map (Cell.map b.identity))
  | predicate name accepts => .predicate name accepts
  | any name cells => .any name (cells.toList.map (Cell.map b.identity))

theorem Paired.seen_eq {c c' : Column} (h : c.Paired V c') (hV : SeenAlike b b' V) :
    c.seen b = c'.seen b' := by
  cases h with
  | predicate => rfl
  | any name cells =>
    exact congrArg (SeenColumn.any name) (map_eq_of_forall₂ cells fun _ _ hx => hx.map_eq hV)
  | @data d d' name cells index =>
    have hindex : d.hasIndex = d'.hasIndex := by
      have h := congrArg Option.isSome (index ⟨0⟩)
      rwa [Option.isSome_map, Option.isSome_map] at h
    have hcells := map_eq_of_forall₂ cells fun _ _ hx => hx.map_eq hV
    show SeenColumn.data d.name d.hasIndex _ = SeenColumn.data d'.name d'.hasIndex _
    rw [name, hindex, hcells]

end Column

namespace Table

def seen (b : Bindings) (t : Table) : SeenTable := ⟨t.name, t.size, t.columns.map (Column.seen b)⟩

theorem Paired.seen_eq {t t' : Table} (h : t.Paired V t') (hV : SeenAlike b b' V) :
    t.seen b = t'.seen b' := by
  unfold seen
  rw [h.name, h.size, map_eq_of_forall₂ h.columns fun _ _ hc => hc.seen_eq hV]

end Table

namespace Query

def seen (b : Bindings) (q : Query) : SeenQuery :=
  ⟨q.tables.tables.entries.map fun e => (e.1, e.2.seen b), q.result.map (Table.seen b)⟩

theorem Paired.seen_eq {q q' : Query} (h : q.Paired V q') (hV : SeenAlike b b' V) :
    q.seen b = q'.seen b' := by
  have hresult : q.result.map (Table.seen b) = q'.result.map (Table.seen b') := by
    rcases eq_none_or_of_rel h.result with ⟨hx, hy⟩ | ⟨t, t', hx, hy, ht⟩
    · rw [hx, hy, Option.map_none, Option.map_none]
    · rw [hx, hy, Option.map_some, Option.map_some, ht.seen_eq hV]
  have htables : q.tables.tables.entries.map (fun e => (e.1, e.2.seen b)) =
      q'.tables.tables.entries.map fun e => (e.1, e.2.seen b') :=
    map_eq_of_forall₂ (Dictionary.forall₂_entries h.tables) fun _ _ he =>
      congrArg₂ Prod.mk he.1 (he.2.seen_eq hV)
  unfold seen
  rw [htables, hresult]

/-! ### Histories -/

/-- What each step of a query comes to, whether it fails or not, with the query as it then is seen. -/
def history (a : App) : List Step → Query × World → List (Except Error Unit × SeenQuery)
  | [], _ => []
  | s :: steps, (q, w) =>
    let r := (q.run (s.run a)).run w
    (r.1.1, r.1.2.seen r.2.graph.bindings) :: history a steps (r.1.2, r.2)

theorem history_eq {g : Ground} {a a' : App} (ha : g.Serves a a') {steps : List Step}
    (hs : ∀ s ∈ steps, s.Blind ∨ g.lasting) {p : (Query × World) × (Query × World)}
    (hp : g.stages.Step p p) : history a steps p.1 = history a' steps p.2 := by
  induction steps generalizing p with
  | nil => rfl
  | cons s steps ih =>
    obtain ⟨hstep, hagree⟩ := g.wpS₂_step ha hp (hs s (List.mem_cons_self ..))
    have hnext := g.stages.stay hstep
    have hrest := ih (fun s h => hs s (List.mem_cons_of_mem _ h)) hnext
    refine List.cons_eq_cons.2 ⟨Prod.ext ?_ (hnext.2.seen_eq (g.seenAlike _)), hrest⟩
    exact agree_eq_iff.1 (hagree.mono fun _ _ _ => rfl)

/-- Two runs of a query of sources, reachability flows, selections, and filters that ask for no nodes,
on a graph in memory: the registries have nothing in them at first, and each has its own capacity. The
steps succeed or fail alike, and after each the tables and the result are seen alike. -/
theorem history_transparent {o o' : DatabaseOptions} {d : GraphDump} {s : InMemoryStore} {a a' : App}
    {l : Language} {w w' : World} {steps : List Step} (ha : App.new o s.toStore = .ok a)
    (ha' : App.new o' s.toStore = .ok a') (hd : InMemoryStore.Holds d s) (hl : l.Fresh)
    (hw : w.graph.Blank l) (hw' : w'.graph.Blank l) (hs : ∀ x ∈ steps, x.Blind) :
    history a steps (.empty, w) = history a' steps (.empty, w') := by
  have hready : ∀ {w : World}, w.graph.Blank l → (Ground.inMemory d l False).Ready w.graph :=
    fun h => .of_blank h hl False.elim
  have hserves : (Ground.inMemory d l False).Serves a a' := Ground.serves_inMemory hd ha ha'
  exact history_eq hserves (fun x hx => Or.inl (hs x hx)) (Ground.step_empty (hready hw) (hready hw'))

/-- Which files include each other, with a predicate that asks for nodes. -/
def inclusions : List Step :=
  [.source ⟨"a", .data, .node fun _ => true⟩, .source ⟨"b", .data, .any⟩,
    .source ⟨"c", .predicate, .none⟩, .reach ⟨"a", "b", some "c", "d"⟩ ⟨some "include", none⟩,
    .keep "d" (.row fun r => r.length = 4), .select ["a", "b", "d"]]

theorem history_transparent_inclusions :
    ∃ s a a', InMemoryStore.Holds mutualFiles s ∧ App.new .default s.toStore = .ok a ∧
      App.new ⟨.default, ⟨some 1⟩⟩ s.toStore = .ok a' ∧
      history a inclusions (.empty, .new a ⟨"plain", [], []⟩) =
        history a' inclusions (.empty, .new a' ⟨"plain", [], []⟩) := by
  obtain ⟨s, hs⟩ := InMemoryStore.exists_holds (d := mutualFiles) (by decide) (by decide)
  have hblind : ∀ x ∈ inclusions, x.Blind := by
    intro x hx
    simp only [inclusions, List.mem_cons, List.not_mem_nil, or_false] at hx
    rcases hx with rfl | rfl | rfl | rfl | rfl | rfl <;> exact trivial
  have ha : App.new .default s.toStore = .ok ⟨.default, s.toStore⟩ := rfl
  have ha' : App.new ⟨.default, ⟨some 1⟩⟩ s.toStore = .ok ⟨⟨.default, ⟨some 1⟩⟩, s.toStore⟩ := rfl
  exact ⟨s, _, _, hs, ha, ha', history_transparent ha ha' hs (fun _ h => absurd h List.not_mem_nil)
    (Context.blank_new _ _) (Context.blank_new _ _) hblind⟩

end Query

end CodeGraph
