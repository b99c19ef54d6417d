import CodeGraph.Engine.Render
import CodeGraph.Proofs.BuiltTables
import CodeGraph.Proofs.OrderOfUse
import CodeGraph.Proofs.RowView
import CodeGraph.Proofs.Views

/-!
# Tables rendered

What is shown of a cell depends on the bindings and on the nodes that can be looked up, and looking
changes neither: it uses entries of the registry and may leave notices (`Context.Watched`). So a table is
shown as a view that is settled by the context before the first look (`Table.viewIn`), and a well-formed
table is shown without failure (`TableView.wpE_ofTable`). The result of a query is such a table, whatever
made it, and all looks at it show one view (`Query.looks_show_one_view`).
-/

namespace CodeGraph

namespace Context
variable {c c' c'' : Context}

/-- `c'` is `c` after someone has looked: entries of the registry have been used, and notices have been
left. -/
structure Watched (c c' : Context) : Prop where
  language : c'.language = c.language
  bindings : c'.bindings = c.bindings
  staged : c'.staged = c.staged
  capacity : c'.registry.capacity = c.registry.capacity
  peek? : ∀ id, c'.registry.peek? id = c.registry.peek? id

theorem Alike.watched (h : c.Alike c') : c.Watched c' :=
  ⟨h.language, h.bindings, h.staged, h.capacity, h.peek?⟩

namespace Watched

theorem refl (c : Context) : c.Watched c := (Alike.refl c).watched

theorem trans (h : c.Watched c') (h' : c'.Watched c'') : c.Watched c'' :=
  ⟨h'.language.trans h.language, h'.bindings.trans h.bindings, h'.staged.trans h.staged,
    h'.capacity.trans h.capacity, fun id => (h'.peek? id).trans (h.peek? id)⟩

theorem nodeAt? (h : c.Watched c') (id : VertexId) : c'.nodeAt? id = c.nodeAt? id := by
  unfold Context.nodeAt?
  rw [h.peek?, h.staged]

end Watched

def nodeFor? (c : Context) (v : Value) : Option GraphNode := (c.bindings.vertex? v).bind c.nodeAt?

theorem Watched.nodeFor? (h : c.Watched c') (v : Value) : c'.nodeFor? v = c.nodeFor? v := by
  unfold Context.nodeFor?
  rw [h.bindings, funext h.nodeAt?]

theorem wp_nodeOf?_nodeFor? (v : Value) (c : Context) :
    wp (nodeOf? (.value v)) (fun found c' => found = c.nodeFor? v ∧ c.Alike c') c := by
  refine ⟨?_, onlyUses_nodeOf? v c⟩
  cases hv : c.bindings.vertex? v with
  | some id =>
    rw [nodeFor?, hv]
    exact (wp_nodeOf?_bound hv).1
  | none =>
    have hnone : wp (nodeOf? (.value v)) (fun found _ => found = none) c := by
      unfold nodeOf? nodeOf lookup vertexOf
      rw [wp_bind, wp_run, wpE_bind, wpE_bind, wpE_bind, wpE_get, hv]
      exact rfl
    rw [nodeFor?, hv]
    exact hnone

end Context

/-! ### Cells -/

namespace Cell
variable {c c' : Context}

def placeIn (c : Context) (v : Value) : String := ((c.nodeFor? v).map GraphNode.location).getD "?"

def textIn (c : Context) : Cell Ref → String
  | null => ""
  | text s => s
  | path p => " -> ".intercalate (p.map (placeIn c))
  | value v => ((c.nodeFor? v).map GraphNode.text).getD v.identifier

theorem placeIn_watched (h : c.Watched c') : placeIn c' = placeIn c :=
  funext fun v => by rw [placeIn, placeIn, h.nodeFor?]

theorem textIn_watched (h : c.Watched c') : textIn c' = textIn c := by
  funext cell
  cases cell with
  | null | text => rfl
  | path p => rw [textIn, textIn, placeIn_watched h]
  | value v => rw [textIn, textIn, h.nodeFor?]

theorem wp_place (v : Value) (c : Context) :
    wp (FlowPath.place v) (fun s c' => s = placeIn c v ∧ c.Watched c') c := by
  unfold FlowPath.place
  rw [wp_bind]
  refine wp_mono (Context.wp_nodeOf?_nodeFor? v c) fun found c' h => ?_
  obtain ⟨rfl, ha⟩ := h
  unfold placeIn
  cases c.nodeFor? v <;> exact ⟨rfl, ha.watched⟩

theorem wp_render (cell : Cell Ref) (c : Context) :
    wp cell.render (fun s c' => s = cell.textIn c ∧ c.Watched c') c := by
  cases cell with
  | null | text => exact ⟨rfl, .refl c⟩
  | path p =>
    show wp (p.mapM FlowPath.place >>= _) _ c
    rw [wp_bind]
    refine wp_mono (wp_mapM (g := placeIn c) (I := c.Watched) (fun v _ c' h => ?_) (.refl c)) ?_
    · refine wp_mono (wp_place v c') fun s c'' hs => ?_
      exact ⟨hs.1.trans (congrFun (placeIn_watched h) v), h.trans hs.2⟩
    · rintro _ c' ⟨rfl, h⟩
      exact ⟨rfl, h⟩
  | value v =>
    simp only [render, textIn]
    rw [wp_bind]
    refine wp_mono (Context.wp_nodeOf?_nodeFor? v c) fun found c' h => ?_
    obtain ⟨rfl, ha⟩ := h
    cases c.nodeFor? v with
    | some n => exact ⟨rfl, ha.watched⟩
    | none =>
      have hnoticed : c'.Watched { c' with notices := c'.notices.push .nodeMissing } :=
        ⟨rfl, rfl, rfl, rfl, fun _ => rfl⟩
      exact ⟨rfl, ha.watched.trans hnoticed⟩

end Cell

/-! ### Tables -/

namespace Table
variable {t : Table} {i : Nat}

def viewIn (c : Context) (t : Table) : TableView :=
  ⟨t.headers, t.sheet.rows.map (·.map (Cell.textIn c))⟩

theorem viewIn_watched {c c' : Context} (h : c.Watched c') : viewIn c' = viewIn c := by
  unfold viewIn
  rw [Cell.textIn_watched h]

theorem length_rows_viewIn (c : Context) (t : Table) : (t.viewIn c).rows.length = t.rowCount :=
  (List.length_map _).trans (length_rows_sheet t)

theorem rectangular_viewIn (c : Context) (t : Table) : (t.viewIn c).Rectangular := by
  intro row hrow
  obtain ⟨cells, hcells, rfl⟩ := List.mem_map.1 hrow
  obtain ⟨i, -, rfl⟩ := List.mem_map.1 hcells
  simp only [line, viewIn, headers, List.length_map]

theorem WellFormed.gridded_of_lt (h : t.WellFormed) (hi : i < t.rowCount) : t.Gridded := by
  rcases h.kind with ⟨hplain, -⟩ | ⟨-, -, hsize⟩
  · exact ⟨h, hplain⟩
  · unfold rowCount at hi
    rw [hsize] at hi
    cases hi

end Table

namespace TableView
variable {t : Table} {c : Context}

theorem pushRow_of_length {v : TableView} {row : List String} (h : row.length = v.headers.length) :
    v.pushRow row = .ok ⟨v.headers, v.rows ++ [row]⟩ := if_pos h

theorem wpE_ofTable (h : t.WellFormed) (c : Context) :
    wpE (ofTable t) (fun v c' => v = t.viewIn c ∧ c.Watched c') Never c := by
  have hview : t.viewIn c = ⟨t.headers, (List.range t.rowCount).map fun i => (t.line i).map (Cell.textIn c)⟩ := by
    rw [Table.viewIn, Table.sheet, List.map_map]
    rfl
  rw [hview]
  refine wpE_foldlM (fun done (v : TableView) c' =>
    v = ⟨t.headers, done.map fun i => (t.line i).map (Cell.textIn c)⟩ ∧ c.Watched c')
    (fun done i v c' hi hv => ?_) ⟨rfl, .refl c⟩
  obtain ⟨rfl, hw⟩ := hv
  have hlt := List.mem_range.1 hi
  unfold addRow
  rw [wpE_bind, wpE_except, (h.gridded_of_lt hlt).rowCells_eq, if_pos hlt]
  dsimp only
  rw [wpE_bind]
  show wpE (liftM ((t.line i).mapM Cell.render)) _ _ c'
  rw [wpE_lift]
  refine wp_mono (wp_mapM (g := Cell.textIn c) (I := c.Watched) (fun cell _ c₁ h₁ => ?_) hw) ?_
  · refine wp_mono (cell.wp_render c₁) fun s c₂ hs => ?_
    exact ⟨hs.1.trans (congrFun (Cell.textIn_watched h₁) cell), h₁.trans hs.2⟩
  · rintro _ c₁ ⟨rfl, h₁⟩
    have hlen : ((t.line i).map (Cell.textIn c)).length = t.headers.length := by
      simp only [Table.line, Table.headers, List.length_map]
    rw [wpE_except, pushRow_of_length hlen, List.map_append]
    exact ⟨rfl, h₁⟩

end TableView

/-! ### Results -/

/-- `w'` is `w` after someone has looked. -/
def World.Watched (w w' : World) : Prop := ∃ c, w.graph.Watched c ∧ w' = { w with graph := c }

theorem World.Watched.refl (w : World) : w.Watched w := ⟨w.graph, .refl _, rfl⟩

theorem World.Watched.trans {w w' w'' : World} (h : w.Watched w') (h' : w'.Watched w'') : w.Watched w'' := by
  obtain ⟨c, hc, rfl⟩ := h
  obtain ⟨c', hc', rfl⟩ := h'
  exact ⟨c', hc.trans hc', rfl⟩

theorem World.Watched.graph {w w' : World} (h : w.Watched w') : w.graph.Watched w'.graph := by
  obtain ⟨c, hc, rfl⟩ := h
  exact hc

namespace Query

inductive Look where
  | output
  | render (style : OutputStyle)

namespace Look

def run (q : Query) : Look → QueryM (TableView ⊕ String)
  | output => do return .inl (← q.output)
  | render style => do return .inr (← q.render style)

def shown (v : TableView) : Look → TableView ⊕ String
  | output => .inl v
  | render style => .inr (v.render style)

end Look

variable {a : App} {q : Query} {t : Table} {w : World}

theorem wpE_output (h : t.WellFormed) (ht : q.result = some t) (w : World) :
    wpE q.output (fun v w' => v = t.viewIn w.graph ∧ w.Watched w') Never w := by
  unfold output resultTable
  rw [wpE_bind, ht, wpE_except]
  show wpE (World.resolving (TableView.ofTable t)) _ _ w
  rw [wpE_resolving]
  exact wpE_of_never (TableView.wpE_ofTable h w.graph) fun v c hv => ⟨hv.1, c, hv.2, rfl⟩

theorem Look.wpE_run (h : t.WellFormed) (ht : q.result = some t) (look : Look) (w : World) :
    wpE (look.run q) (fun x w' => x = look.shown (t.viewIn w.graph) ∧ w.Watched w') Never w := by
  cases look with
  | output =>
    show wpE (q.output >>= _) _ _ w
    rw [wpE_bind]
    exact wpE_of_never (wpE_output h ht w) fun v w' hv => ⟨congrArg Sum.inl hv.1, hv.2⟩
  | render style =>
    show wpE ((q.output >>= _) >>= _) _ _ w
    rw [wpE_bind, wpE_bind]
    refine wpE_of_never (wpE_output h ht w) fun v w' hv => ?_
    exact ⟨congrArg (fun v : TableView => Sum.inr (v.render style)) hv.1, hv.2⟩

theorem wpE_looks (h : t.WellFormed) (ht : q.result = some t) (looks : List Look) (w : World) :
    wpE (looks.mapM (Look.run q))
      (fun xs w' => xs = looks.map (·.shown (t.viewIn w.graph)) ∧ w.Watched w') Never w := by
  refine wpE_mapM (I := w.Watched) (fun look _ w₁ h₁ => ?_) (.refl w)
  refine wpE_of_never (look.wpE_run h ht w₁) fun x w₂ hx => ?_
  -- what has been looked at before makes no difference to the view
  rw [← Table.viewIn_watched h₁.graph]
  exact ⟨hx.1, h₁.trans hx.2⟩

/-- The result of a query is shown without failure, whatever made it and whatever has been forgotten.
The view has the headers and as many rows as the result, each with a cell for every header. Looks at it in
any ways, one after the other, all show this view and leave what is registered as it was; in JSON either
layout decodes to it. -/
theorem looks_show_one_view (h : q.Made a) (ht : q.result = some t) (w : World) :
    ∃ v : TableView, v.headers = t.headers ∧ v.rows.length = t.rowCount ∧ v.Rectangular ∧
      (∀ looks : List Look, ∃ w', (looks.mapM (Look.run q)).run.run w = (.ok (looks.map (·.shown v)), w') ∧
        w.Watched w') ∧
      TableView.ofLiteral?.parse? (v.render .json) = some v ∧
      TableView.ofLiteral?.parse? (v.render .jsonMin) = some v := by
  have hwell := (h.built.result t ht).wellFormed
  refine ⟨t.viewIn w.graph, rfl, t.length_rows_viewIn _, t.rectangular_viewIn _, fun looks => ?_,
    (t.viewIn w.graph).decode_json, (t.viewIn w.graph).decode_jsonMin⟩
  obtain ⟨_, w', hrun, rfl, hw⟩ := exists_of_wpE (wpE_looks hwell ht looks w)
  exact ⟨w', hrun, hw⟩

/-- A value that belongs to no vertex, and a text. -/
def mixedTable : Table := .ofColumn "a" (.any "a" #[.value someFile, .text "note"])

/-- The query that gets this table from a transform and selects its column and a literal. -/
def mixedQuery : Query :=
  let w := World.new WhereStage.nowhere ⟨"plain", [], []⟩
  let asked := (Call.after WhereStage.nowhere (empty, w) (.source ⟨"a", .predicate, .any⟩)).1
  let made := (Call.after WhereStage.nowhere (asked, w) (.filter ⟨"a", .custom fun _ _ => .ok mixedTable⟩)).1
  (Call.after WhereStage.nowhere (made, w) (.select ["a", "kind"])).1

theorem looks_show_one_view_mixed :
    mixedQuery.Made WhereStage.nowhere ∧ ∃ t v w', mixedQuery.result = some t ∧ v.headers = ["a", "kind"] ∧
      v.rows.length = 2 ∧
      ([Look.output, .render .markdown, .output].mapM (Look.run mixedQuery)).run.run
        (.new WhereStage.nowhere ⟨"plain", [], []⟩) =
        (.ok [.inl v, .inr v.markdown, .inl v], w') := by
  have hfilter : (Call.filter ⟨"a", .custom fun _ _ => .ok mixedTable⟩).Builds := by
    rintro transform h b t t' - ht
    cases h
    cases ht
    exact Table.built_ofColumn ..
  have hmade : mixedQuery.Made WhereStage.nowhere :=
    ((Made.empty.call _ (c := .source ⟨"a", .predicate, .any⟩) trivial).call _ hfilter).call _
      (c := .select ["a", "kind"]) trivial
  obtain ⟨v, hheaders, hrows, -, hlooks, -⟩ :=
    looks_show_one_view hmade rfl (.new WhereStage.nowhere ⟨"plain", [], []⟩)
  obtain ⟨w', hrun, -⟩ := hlooks [.output, .render .markdown, .output]
  exact ⟨hmade, _, v, w', rfl, hheaders, hrows, hrun⟩

end Query

end CodeGraph
