import CodeGraph.Proofs.Classification
import CodeGraph.Proofs.OrderOfUse
import CodeGraph.Proofs.Recency
import CodeGraph.Proofs.TableView

/-!
# What a scan registers

A vertex goes through many hands while it is scanned: it is resolved, staged, asked about, taken back and
perhaps registered, and predicates look up nodes in between. `Scan.wp_classify_of` has these steps in a
row. In a context where nothing is staged or forgotten (`Context.Orderly`) they come to this: a predicate
judges the value of the vertex with the node that is registered for it, or else with its own
(`Scan.judge`), and the vertex is registered if some predicate accepts it. So a scan registers what is
accepted and nothing else, and the cells are the registered values (`Scan.run_registers_matches`).
-/

namespace CodeGraph

namespace Registry
open Recency
variable {g : Registry} {id : VertexId} {k : Registration} {ks : List Registration}

theorem Lists.id_of_peek? (h : g.Lists ks) (hk : g.peek? id = some k) : k.id = id := by
  rcases missing_or_exists id ks with hm | ⟨r, hr, rfl⟩
  · rw [h.peek?_of_missing hm] at hk
    cases hk
  · rw [h.peek?_of_mem hr] at hk
    cases hk
    rfl

theorem Lists.touch? (h : g.Lists ks) (id : VertexId) : ∃ ks', (g.touch? id).2.Lists ks' := by
  rcases missing_or_exists id ks with hm | ⟨r, hr, rfl⟩
  · rw [h.touch?_of_missing hm]
    exact ⟨ks, h⟩
  · obtain ⟨ks', -, -, h'⟩ := h.touch?_of_mem hr
    exact ⟨ks', h'⟩

theorem peek?_register_of_some {new : Registration} (hn : g.capacity = none) (hk : g.peek? id = some k) :
    (g.register new).2.peek? id = some k := by
  rw [peek?_register hn]
  split
  · next hid =>
    rw [register_fst, ← hid, hk]
    rfl
  · exact hk

end Registry

namespace Context
variable {c c' : Context} {id : VertexId}

def staging (c : Context) (r : Registration) : Context := { c with staged := c.staged.insert r.id r }

def unstaging (c : Context) (id : VertexId) : Context := { c with staged := c.staged.erase id }

def registering (c : Context) (r : Registration) : Context :=
  { c with registry := (c.registry.register r).2 }

def nodes (c : Context) (id : VertexId) : Option GraphNode := (c.registry.peek? id).map (·.node)

/-- Nothing is staged and nothing is forgotten. Each registered pair is listed once, under the vertex of
its node, and its value belongs to that vertex. -/
structure Orderly (c : Context) : Prop where
  fresh : c.language.Fresh
  unbuilt : c.bindings.Unbuilt
  unbounded : c.registry.capacity = none
  unstaged : ∀ id : VertexId, c.staged[id]? = none
  listed : ∃ ks, c.registry.Lists ks
  owned : ∀ id k, c.registry.peek? id = some k → c.bindings.Owns id k.value

theorem orderly_new {l : Language} (h : l.Fresh) : (new l none).Orderly :=
  ⟨h, fun _ _ => Std.HashMap.getElem?_empty, rfl, fun _ => Std.HashMap.getElem?_empty,
    ⟨[], Registry.lists_ofCapacity none⟩, fun _ _ hk => nomatch hk⟩

theorem node_register (c : Context) (built : Registration) :
    (c.registry.register built).1.node = (c.nodes built.id).getD built.node := by
  rw [Registry.register_fst, nodes]
  cases c.registry.peek? built.id <;> rfl

theorem nodes_registering (h : c.registry.capacity = none) (built : Registration) :
    (c.registering built).nodes =
      Function.update c.nodes built.id (some ((c.nodes built.id).getD built.node)) := by
  funext id
  rw [Function.update_apply, ← node_register]
  show ((c.registry.register built).2.peek? id).map _ = _
  rw [Registry.peek?_register h]
  split <;> rfl

theorem nodes_of_peek? (h : ∀ id, c'.registry.peek? id = c.registry.peek? id) : c'.nodes = c.nodes := by
  funext id
  rw [nodes, nodes, h]

theorem nodeAt?_staging (c : Context) (r : Registration) :
    (c.staging r).nodeAt? r.id = some ((c.nodes r.id).getD r.node) := by
  show ((c.registry.peek? r.id).or (c.staged.insert r.id r)[r.id]?).map _ =
    some (((c.registry.peek? r.id).map (·.node)).getD r.node)
  rw [Std.HashMap.getElem?_insert_self]
  cases c.registry.peek? r.id <;> rfl

theorem staged_unstaging (c : Context) (r : Registration) (id : VertexId) :
    ((c.staging r).unstaging r.id).staged[id]? = if r.id = id then none else c.staged[id]? := by
  show ((c.staged.insert r.id r).erase r.id)[id]? = _
  rw [Std.HashMap.getElem?_erase, Std.HashMap.getElem?_insert]
  by_cases h : r.id = id <;> simp [h]

theorem finds_of_touch {I : Context → Prop} {v : Value} {n : GraphNode} (hv : c.bindings.Owns id v)
    (hn : c.nodeAt? id = some n) (halike : ∀ c', I c' → c.Alike c')
    (htouch : ∀ c', I c' → I { c' with registry := (c'.registry.touch? id).2 }) :
    ValuePredicate.Finds I n v := by
  intro t ht c' hc'
  have ha := halike c' hc'
  have hbound : c'.bindings.vertex? t = some id := by
    rw [ha.bindings]
    exact (hv.below ht).vertex?
  refine wp_mono (wp_nodeOf?_bound hbound) fun found c'' h => ?_
  obtain ⟨rfl, rfl⟩ := h
  exact ⟨(ha.nodeAt? id).trans hn, htouch c' hc'⟩

end Context

namespace Scan
variable {c c' c₀ : Context} {actions : List ScanAction} {columns : List DataColumn} {v : Vertex}
  {r : Reading} {rs : List Reading}

/-! ### One vertex -/

theorem wp_answers_of_finds {I : Context → Prop} {b : Bindings} {n : GraphNode} {u : Value}
    (hb : ∀ c, I c → c.bindings = b) (hn : ValuePredicate.Finds I n u) (hc : I c) :
    wp (answers actions u) (fun yes c' =>
      yes = actions.map (fun x => x.accepts.holds n (b.view u)) ∧ I c') c :=
  wp_mapM (fun x _ _ h => x.accepts.wp_test_of_finds hb (Or.inr hn) h) hc

/-- What going over a vertex comes to: it is skipped, or its pair is staged while the predicates are
asked, and what some predicate has accepted is registered. -/
theorem wp_classify_of {Q : List DataColumn → Context → Prop} (hl : c.language.Fresh)
    (hu : c.bindings.Unbuilt)
    (hskip : c.language.read v = none → Q columns { c with notices := c.notices.push .vertexSkipped })
    (hmet : ∀ (built : Registration) (c₁ : Context), c.Grows c₁ → c₁.registry = c.registry →
      c₁.staged = c.staged → built.node.vertex = v → built.Faithful c₁ →
      wp (answers actions built.value) (fun yes c₂ =>
        if yes.any id = true then
          Q (addMatches c₂.bindings (c₂.registry.register built).1.value columns yes)
            ((c₂.unstaging built.id).registering built)
        else Q columns (c₂.unstaging built.id)) (c₁.staging built)) :
    wp (classify actions columns v) Q c := by
  unfold classify
  rw [wp_bind, wp_run]
  refine wpE_mono (Context.wpE_resolve_bypass hl hu v) (fun built c₁ h => ?_) fun e c₁ h => ?_
  · obtain ⟨hg, hreg, hstaged, hnode, hfaith⟩ := h
    show wp (Context.stage built >>= _) _ c₁
    rw [wp_bind, Context.wp_stage, wp_bind]
    refine wp_mono (hmet built c₁ hg hreg hstaged hnode hfaith) fun yes c₂ hQ => ?_
    rw [wp_bind, Context.wp_unstage]
    split
    · next hany =>
      rw [if_pos hany] at hQ
      exact hQ
    · next hany =>
      rw [if_neg hany] at hQ
      exact hQ
  · obtain ⟨rfl, hnone⟩ := h
    exact hskip hnone

/-- What predicates are told of a vertex: its value, and the node that is known for it or else its own. -/
def judge (known : VertexId → Option GraphNode) (v : Vertex) (r : Reading) : Reading :=
  ⟨(known v.id).getD r.node, r.value⟩

/-- Some action accepts what is told of a vertex. -/
def matched (actions : List ScanAction) (r : Reading) : Bool := actions.any fun x => r.satisfies x.accepts

/-- A vertex more: the nodes that are known then, and what has been told of the vertices so far. -/
def meet (l : Language) (actions : List ScanAction)
    (x : (VertexId → Option GraphNode) × List Reading) (v : Vertex) :
    (VertexId → Option GraphNode) × List Reading :=
  match l.read v with
  | none => x
  | some r =>
    (if matched actions (judge x.1 v r) then Function.update x.1 v.id (some (judge x.1 v r).node) else x.1,
      x.2 ++ [judge x.1 v r])

def told (l : Language) (actions : List ScanAction) (known : VertexId → Option GraphNode)
    (vs : List Vertex) : List Reading :=
  (vs.foldl (meet l actions) (known, [])).2

/-! ### Columns -/

/-- The columns have what is right for the readings that their actions accept. -/
def Columned (P : DataColumn → List Reading → Prop) (rs : List Reading) (actions : List ScanAction)
    (columns : List DataColumn) : Prop :=
  List.Forall₂ (fun x col => col.name = x.name ∧ P col (rs.filter (·.satisfies x.accepts))) actions columns

namespace Columned
variable {P P' : DataColumn → List Reading → Prop}

theorem imp (h : Columned P rs actions columns) (hP : ∀ col rs, P col rs → P' col rs) :
    Columned P' rs actions columns :=
  List.Forall₂.imp (fun _ _ hcol => ⟨hcol.1, hP _ _ hcol.2⟩) h

theorem addMatches {b : Bindings} {u : Value} (h : Columned P rs actions columns)
    (hpush : ∀ col rs, P col rs → P (col.push b (.value u)) (rs ++ [r])) :
    Columned P (rs ++ [r]) actions (addMatches b u columns (actions.map fun x => r.satisfies x.accepts)) := by
  induction h with
  | nil => exact .nil
  | @cons x col actions columns hx _ ih =>
    refine .cons ?_ ih
    show (if r.satisfies x.accepts = true then col.push b (.value u) else col).name = x.name ∧
      P (if r.satisfies x.accepts = true then col.push b (.value u) else col) _
    rw [List.filter_append, List.filter_cons, List.filter_nil]
    by_cases hs : r.satisfies x.accepts = true
    · rw [if_pos hs, if_pos hs]
      exact ⟨hx.1, hpush _ _ hx.2⟩
    · rw [if_neg hs, if_neg hs, List.append_nil]
      exact hx

theorem skip (h : Columned P rs actions columns) (hr : matched actions r = false) :
    Columned P (rs ++ [r]) actions columns := by
  refine (forall₂_of_mem h.flip fun col x hx hcol => ?_).flip
  have hs : ¬ r.satisfies x.accepts = true := List.any_eq_false.1 hr x hx
  refine ⟨hcol.1, ?_⟩
  rw [List.filter_append, List.filter_cons, if_neg hs, List.filter_nil, List.append_nil]
  exact hcol.2

theorem names (h : Columned P rs actions columns) : columns.map (·.name) = actions.map (·.name) :=
  map_eq_map_of_forall₂ (h.flip.imp fun _ _ hx => hx.1)

end Columned

/-- The cell is the registered value of the vertex, and the node registered for it is that of the
reading. -/
def Holds (c : Context) (cell : Cell Ref) (r : Reading) : Prop :=
  ∃ k : Registration, cell = .value k.value ∧ c.registry.peek? r.id = some k ∧ k.node = r.node

/-- How far a scan has come that has started from `c₀`. What was registered before still is, what is
registered now was then or is of a vertex that some action accepts, and the columns have the registered
values. -/
structure Progress (c₀ : Context) (actions : List ScanAction) (rs : List Reading)
    (columns : List DataColumn) (c : Context) : Prop where
  orderly : c.Orderly
  language : c.language = c₀.language
  old : ∀ id k, c₀.registry.peek? id = some k → c.registry.peek? id = some k
  new : ∀ id k, c.registry.peek? id = some k → c₀.registry.peek? id = some k ∨
    ∃ r ∈ rs, matched actions r = true ∧ k.node = r.node ∧ c.bindings.view k.value = r.value
  columns : Columned (fun col rs => List.Forall₂ (Holds c) col.cells.toList rs) rs actions columns

theorem progress_start (h : c.Orderly) (actions : List ScanAction) :
    Progress c actions [] (actions.map fun x => .new x.name true) c where
  orderly := h
  language := rfl
  old _ _ hk := hk
  new _ _ hk := Or.inl hk
  columns := by
    unfold Columned
    induction actions with
    | nil => exact .nil
    | cons x actions ih => exact .cons ⟨rfl, .nil⟩ ih

namespace Progress

theorem of_peek? (h : Progress c₀ actions rs columns c) (hg : c.Grows c')
    (hpeek : ∀ id, c'.registry.peek? id = c.registry.peek? id) (hl : ∃ ks, c'.registry.Lists ks)
    (hs : ∀ id : VertexId, c'.staged[id]? = none) : Progress c₀ actions rs columns c' where
  orderly := {
    fresh := by rw [hg.language]; exact h.orderly.fresh
    unbuilt := hg.unbuilt h.orderly.unbuilt
    unbounded := hg.capacity.trans h.orderly.unbounded
    unstaged := hs
    listed := hl
    owned := fun id k hk => (h.orderly.owned id k (hpeek id ▸ hk)).mono hg.bindings }
  language := hg.language.trans h.language
  old id k hk := (hpeek id).trans (h.old id k hk)
  new id k hk := by
    rw [hpeek] at hk
    refine (h.new id k hk).imp_right fun ⟨r, hr, hm, hnode, hview⟩ => ⟨r, hr, hm, hnode, ?_⟩
    rw [(h.orderly.owned id k hk).view_mono hg.bindings, hview]
  columns := h.columns.imp fun col rs hcol => hcol.imp fun cell r hcell => by
    obtain ⟨k, hc, hk, hn⟩ := hcell
    exact ⟨k, hc, (hpeek r.id).trans hk, hn⟩

theorem skip (h : Progress c₀ actions rs columns c) (hr : matched actions r = false) :
    Progress c₀ actions (rs ++ [r]) columns c where
  orderly := h.orderly
  language := h.language
  old := h.old
  new id k hk := (h.new id k hk).imp_right fun ⟨r, hr, hm⟩ => ⟨r, List.mem_append_left _ hr, hm⟩
  columns := h.columns.skip hr

theorem register (h : Progress c₀ actions rs columns c) {built : Registration}
    (hb : c.bindings.Owns built.id built.value)
    (hr : r = judge c.nodes built.node.vertex ⟨built.node, c.bindings.view built.value⟩)
    (hm : matched actions r = true) :
    Progress c₀ actions (rs ++ [r])
      (addMatches c.bindings (c.registry.register built).1.value columns
        (actions.map fun x => r.satisfies x.accepts)) (c.registering built) := by
  obtain ⟨ks, hlists⟩ := h.orderly.listed
  have hfst := Registry.register_fst c.registry built
  have hstays (id k) (hk : c.registry.peek? id = some k) : (c.registry.register built).2.peek? id = some k :=
    Registry.peek?_register_of_some h.orderly.unbounded hk
  have hself : (c.registry.register built).2.peek? built.id = some (c.registry.register built).1 := by
    rw [Registry.peek?_register h.orderly.unbounded, if_pos rfl]
  have hnode : (c.registry.register built).1.node = r.node := by
    rw [hr]
    exact c.node_register built
  have hid : r.id = built.id := by
    obtain ⟨ks', -, hlists'⟩ := hlists.register built
    rw [← hlists'.id_of_peek? hself]
    exact congrArg GraphNode.id hnode.symm
  refine ⟨⟨h.orderly.fresh, h.orderly.unbuilt, ?_, h.orderly.unstaged, ?_, fun id k hk => ?_⟩, h.language,
    fun id k hk => hstays id k (h.old id k hk), fun id k hk => ?_, ?_⟩
  · exact (Registry.capacity_register ..).trans h.orderly.unbounded
  · obtain ⟨ks', -, hlists'⟩ := hlists.register built
    exact ⟨ks', hlists'⟩
  · rcases Registry.of_peek?_register hk with ⟨rfl, rfl⟩ | hk
    · rw [hfst]
      cases hold : c.registry.peek? built.id with
      | none => exact hb
      | some k => exact h.orderly.owned _ k hold
    · exact h.orderly.owned id k hk
  · have hbefore (hk : c.registry.peek? id = some k) : c₀.registry.peek? id = some k ∨ ∃ s ∈ rs ++ [r],
        matched actions s = true ∧ k.node = s.node ∧ c.bindings.view k.value = s.value :=
      (h.new id k hk).imp_right fun ⟨s, hs, hm⟩ => ⟨s, List.mem_append_left _ hs, hm⟩
    rcases Registry.of_peek?_register hk with ⟨rfl, rfl⟩ | hk
    · cases hold : c.registry.peek? built.id with
      | none =>
        refine Or.inr ⟨r, List.mem_append_right _ (List.mem_singleton_self r), hm, hnode, ?_⟩
        rw [hfst, hold, hr]
        rfl
      | some k =>
        have hk : (c.registry.register built).1 = k := by
          rw [hfst, hold]
          rfl
        exact hbefore (hold.trans (congrArg some hk.symm))
    · exact hbefore hk
  · refine Columned.addMatches (h.columns.imp fun col rs hcol => hcol.imp fun cell s hcell => ?_)
      fun col rs hcol => ?_
    · obtain ⟨k, hc, hk, hn⟩ := hcell
      exact ⟨k, hc, hstays _ k hk, hn⟩
    · show List.Forall₂ _ (col.cells.push _).toList _
      rw [Array.toList_push]
      exact List.rel_append hcol (.cons ⟨_, rfl, by rw [hid]; exact hself, hnode⟩ .nil)

end Progress

theorem wp_answers_staged (hl : ∃ ks, c.registry.Lists ks) {built : Registration}
    (hb : c.bindings.Owns built.id built.value)
    (hr : r = judge c.nodes built.node.vertex ⟨built.node, c.bindings.view built.value⟩) :
    wp (answers actions built.value) (fun yes c' => yes = actions.map (fun x => r.satisfies x.accepts) ∧
      (c.staging built).Alike c' ∧ ∃ ks, c'.registry.Lists ks) (c.staging built) := by
  have hfound : (c.staging built).nodeAt? built.id = some r.node := by
    rw [hr]
    exact c.nodeAt?_staging built
  have hfinds := Context.finds_of_touch (c := c.staging built)
    (I := fun c' => (c.staging built).Alike c' ∧ ∃ ks, c'.registry.Lists ks) hb hfound
    (fun _ hI => hI.1) fun c' hI => by
      obtain ⟨ha, ks, hks⟩ := hI
      exact ⟨ha.trans (Context.wp_cached? c' built.id).2, hks.touch? built.id⟩
  refine wp_mono (wp_answers_of_finds (fun _ hI => hI.1.bindings) hfinds ⟨.refl _, hl⟩) fun yes c' h => ?_
  refine ⟨h.1.trans ?_, h.2⟩
  rw [hr]
  rfl

theorem wp_classify_progress (h : Progress c₀ actions rs columns c) (v : Vertex) :
    wp (classify actions columns v) (fun columns' c' =>
      Progress c₀ actions (meet c₀.language actions (c.nodes, rs) v).2 columns' c' ∧
        c'.nodes = (meet c₀.language actions (c.nodes, rs) v).1) c := by
  have ho := h.orderly
  refine wp_classify_of ho.fresh ho.unbuilt (fun hnone => ?_)
    fun built c₁ hg hreg hstaged hnode hfaith => ?_
  · have hmeet : meet c₀.language actions (c.nodes, rs) v = (c.nodes, rs) := by
      rw [meet, ← h.language, hnone]
    rw [hmeet]
    exact ⟨h.of_peek? (.of_registry_eq rfl rfl rfl) (fun _ => rfl) ho.listed ho.unstaged, rfl⟩
  · obtain rfl := hnode
    have hmeet : meet c₀.language actions (c.nodes, rs) built.node.vertex =
        (if matched actions (judge c.nodes built.node.vertex ⟨built.node, c₁.bindings.view built.value⟩) = true
          then Function.update c.nodes built.id
            (some (judge c.nodes built.node.vertex ⟨built.node, c₁.bindings.view built.value⟩).node)
          else c.nodes,
          rs ++ [judge c.nodes built.node.vertex ⟨built.node, c₁.bindings.view built.value⟩]) := by
      rw [meet, ← h.language, ← hg.language, hfaith]
      rfl
    rw [hmeet]
    generalize hr : judge c.nodes built.node.vertex ⟨built.node, c₁.bindings.view built.value⟩ = r
    have hnodes : c₁.nodes = c.nodes := Context.nodes_of_peek? fun _ => by rw [hreg]
    refine wp_mono (wp_answers_staged (r := r) (hreg ▸ ho.listed) hfaith.owns (by rw [hnodes, hr]))
      fun yes c₂ hyes => ?_
    obtain ⟨rfl, ha, hlists⟩ := hyes
    have hany : (actions.map fun x => r.satisfies x.accepts).any id = matched actions r := by
      rw [List.any_map]
      rfl
    have hpeek : ∀ id, (c₂.unstaging built.id).registry.peek? id = c.registry.peek? id := fun id => by
      rw [← hreg]
      exact ha.peek? id
    have hunstaged : ∀ id : VertexId, (c₂.unstaging built.id).staged[id]? = none := by
      intro id
      show (c₂.staged.erase built.id)[id]? = none
      rw [ha.staged]
      refine (c₁.staged_unstaging built id).trans ?_
      rw [hstaged, ho.unstaged, ite_self]
    have hgrows : c.Grows (c₂.unstaging built.id) :=
      hg.trans ⟨ha.grows.language, ha.grows.bindings, ha.grows.unbuilt, ha.grows.capacity, ha.grows.kept⟩
    have hbindings : (c₂.unstaging built.id).bindings = c₁.bindings := ha.bindings
    have hprogress := h.of_peek? hgrows hpeek hlists hunstaged
    have hsame := Context.nodes_of_peek? hpeek
    rw [hany]
    split
    · next hm =>
      refine ⟨hprogress.register (hbindings ▸ hfaith.owns) (by rw [hsame, hbindings, hr]) hm, ?_⟩
      rw [Context.nodes_registering hprogress.orderly.unbounded, hsame, ← hr]
      rfl
    · next hm =>
      exact ⟨hprogress.skip (Bool.eq_false_iff.2 hm), hsame⟩

/-! ### A whole scan -/

theorem Columned.of_mem {P : DataColumn → List Reading → Prop} (h : Columned P rs actions columns)
    {x : ScanAction} (hx : x ∈ actions) :
    ∃ col ∈ columns, col.name = x.name ∧ P col (rs.filter (·.satisfies x.accepts)) :=
  exists_mem_of_forall₂ (List.Forall₂.flip h) x hx

/-- If a vertex looks the same wherever it is met, predicates are told what the vertices stand for. -/
theorem told_eq_reads {l : Language} {known : VertexId → Option GraphNode} {vs : List Vertex}
    (hknown : ∀ v ∈ vs, ∀ r, l.read v = some r → ∀ n, known v.id = some n → n = r.node)
    (hsame : ∀ v ∈ vs, ∀ v' ∈ vs, v.id = v'.id → v = v') :
    told l actions known vs = vs.filterMap l.read := by
  have hfold : ∀ rs, (vs.foldl (meet l actions) (known, rs)).2 = rs ++ vs.filterMap l.read := by
    induction vs generalizing known with
    | nil => exact fun rs => (List.append_nil rs).symm
    | cons v vs ih =>
      intro rs
      have hsame' : ∀ u ∈ vs, ∀ u' ∈ vs, u.id = u'.id → u = u' := fun u hu u' hu' =>
        hsame u (List.mem_cons_of_mem _ hu) u' (List.mem_cons_of_mem _ hu')
      rw [List.foldl_cons, List.filterMap_cons, meet]
      cases hr : l.read v with
      | none => exact ih (fun u hu => hknown u (List.mem_cons_of_mem _ hu)) hsame' rs
      | some r =>
        have hown : judge known v r = r := by
          unfold judge
          cases hn : known v.id with
          | none => rfl
          | some n => rw [hknown v (List.mem_cons_self ..) r hr n hn, Option.getD_some]
        dsimp only
        rw [hown, ih (fun u hu s hs n hn => ?_) hsame', List.append_assoc, List.singleton_append]
        split at hn
        · rw [Function.update_apply] at hn
          split at hn
          · next hid =>
            -- the vertex met before was this one
            cases hsame u (List.mem_cons_of_mem _ hu) v (List.mem_cons_self ..) hid
            cases hn
            rw [Option.some.inj (hr.symm.trans hs)]
          · exact hknown u (List.mem_cons_of_mem _ hu) s hs n hn
        · exact hknown u (List.mem_cons_of_mem _ hu) s hs n hn
  exact hfold []

theorem wp_pages_progress {s : GraphStore} {limit : Nat} {w : World} (h : w.graph.Orderly) :
    wp (pages s limit actions (actions.map fun x => .new x.name true) 0) (fun columns w' =>
      Progress w.graph actions (told w.graph.language actions w.graph.nodes (served s limit 0)) columns
        w'.graph) w := by
  refine wp_mono (wp_pages (fun done columns c =>
    Progress w.graph actions (told w.graph.language actions w.graph.nodes done) columns c ∧
      c.nodes = (done.foldl (meet w.graph.language actions) (w.graph.nodes, [])).1)
    (fun done columns c hI => ?_) (fun done v columns c _ hI => ?_) ⟨progress_start h actions, rfl⟩)
    fun columns w' hI => hI.1
  · have ho := hI.1.orderly
    exact ⟨hI.1.of_peek? (.of_registry_eq rfl rfl rfl) (fun _ => rfl) ho.listed ho.unstaged, hI.2⟩
  · have hstep := wp_classify_progress hI.1 v
    unfold told
    rw [List.foldl_concat]
    rwa [hI.2] at hstep

end Scan

theorem Context.wpE_nodeOf_registered {c : Context} {id : VertexId} {k : Registration}
    (hk : c.registry.peek? id = some k) (ho : c.bindings.Owns id k.value) :
    wpE (nodeOf (.value k.value)) (fun n c' => n = k.node ∧ c.Alike c') Never c := by
  unfold nodeOf lookup known
  rw [wpE_bind, wpE_bind]
  refine wpE_of_never (wpE_vertexOf ho) fun x c' hx => ?_
  obtain ⟨rfl, rfl⟩ := hx
  rw [wpE_bind, wpE_lift]
  refine wp_mono (wp_cached? c' x) fun found c'' hc => ?_
  obtain ⟨rfl, ha⟩ := hc
  rw [hk]
  exact ⟨rfl, ha⟩

namespace Scan
variable {a : App} {limit : Nat} {actions : List ScanAction} {w : World}

/-- What a scan of these readings registers and tabulates: the vertices that were registered before and
those that some action accepts, the pairs of the former as they were and those of the latter made of what
was accepted. The column of an action has the registered value of each vertex that it accepts, and the node
of that value is found. -/
structure Registers (actions : List ScanAction) (c : Context) (rs : List Reading) (tables : TableSet)
    (c' : Context) : Prop where
  contains : ∀ id, c'.registry.contains id = true ↔
    c.registry.contains id = true ∨ ∃ r ∈ rs, matched actions r = true ∧ r.id = id
  old : ∀ id k, c.registry.peek? id = some k → c'.registry.peek? id = some k
  new : ∀ id k, c'.registry.peek? id = some k → c.registry.peek? id = some k ∨
    ∃ r ∈ rs, matched actions r = true ∧ k.node = r.node ∧ c'.bindings.view k.value = r.value
  column : ∀ x ∈ actions, ∃ col : DataColumn,
    tables.get? x.name = some (.ofColumn x.name (.data col)) ∧
      List.Forall₂ (fun cell r => ∃ k c'', cell = .value k.value ∧ c'.registry.peek? r.id = some k ∧
        k.node = r.node ∧ (Context.nodeOf (.value k.value)).run.run c' = (.ok r.node, c''))
        col.cells.toList (rs.filter (·.satisfies x.accepts))
  action : ∀ name t, tables.get? name = some t → ∃ x ∈ actions, x.name = name

theorem Progress.registers {c₀ c : Context} {rs : List Reading} {columns : List DataColumn} {tables : TableSet}
    (h : Progress c₀ actions rs columns c) (htables : ∀ name t, tables.get? name = some t ↔
      ∃ col ∈ columns, col.name = name ∧ t = .ofColumn name (.data col)) :
    Registers actions c₀ rs tables c := by
  obtain ⟨ks, hlists⟩ := h.orderly.listed
  refine ⟨fun id => ⟨fun hid => ?_, ?_⟩, h.old, h.new, fun x hx => ?_, fun name t ht => ?_⟩
  · obtain ⟨k, hk⟩ := Option.isSome_iff_exists.1 hid
    refine (h.new id k hk).imp (fun hold => ?_) fun ⟨r, hr, hm, hnode, _⟩ => ⟨r, hr, hm, ?_⟩
    · exact Option.isSome_iff_exists.2 ⟨k, hold⟩
    · rw [← hlists.id_of_peek? hk]
      exact congrArg GraphNode.id hnode.symm
  · rintro (hid | ⟨r, hr, hm, rfl⟩)
    · obtain ⟨k, hk⟩ := Option.isSome_iff_exists.1 hid
      exact Option.isSome_iff_exists.2 ⟨k, h.old id k hk⟩
    · obtain ⟨x, hx, hsat⟩ := List.any_eq_true.1 hm
      obtain ⟨col, -, -, hcells⟩ := h.columns.of_mem hx
      obtain ⟨-, -, k, -, hk, -⟩ := exists_mem_of_forall₂ hcells r (List.mem_filter.2 ⟨hr, hsat⟩)
      exact Option.isSome_iff_exists.2 ⟨k, hk⟩
  · obtain ⟨col, hcol, hname, hcells⟩ := h.columns.of_mem hx
    refine ⟨col, (htables _ _).2 ⟨col, hcol, hname, rfl⟩, hcells.imp fun cell r hcell => ?_⟩
    obtain ⟨k, hc, hk, hnode⟩ := hcell
    obtain ⟨n, c', hfound, rfl, -⟩ := exists_of_wpE
      (Context.wpE_nodeOf_registered hk (h.orderly.owned _ k hk))
    exact ⟨k, c', hc, hk, hnode, hnode ▸ hfound⟩
  · obtain ⟨col, hcol, rfl, -⟩ := (htables name t).1 ht
    have hm : col.name ∈ columns.map (·.name) := List.mem_map_of_mem hcol
    rw [h.columns.names] at hm
    exact List.mem_map.1 hm

/-- A scan registers the vertices that some action accepts and nothing else. An action is told of the
value of a vertex with the node that is registered for the vertex, or its own. If a vertex looks the same
wherever it is served or registered, that is what the vertex stands for. Nothing stays staged. -/
theorem run_registers_matches (h : w.graph.Orderly) (hn : (actions.map (·.name)).Nodup) :
    ∃ tables w', (Scan.run a limit actions).run.run w = (.ok tables, w') ∧ w'.graph.Orderly ∧
      Registers actions w.graph (told w.graph.language actions w.graph.nodes (served a.store limit 0)) tables
        w'.graph ∧
      ((∀ v ∈ served a.store limit 0, ∀ r, w.graph.language.read v = some r →
          ∀ k, w.graph.registry.peek? v.id = some k → k.node = r.node) →
        (∀ v ∈ served a.store limit 0, ∀ v' ∈ served a.store limit 0, v.id = v'.id → v = v') →
        told w.graph.language actions w.graph.nodes (served a.store limit 0) =
          (served a.store limit 0).filterMap w.graph.language.read) := by
  have hrun : wpE (Scan.run a limit actions) (fun tables w' => w'.graph.Orderly ∧
      Registers actions w.graph (told w.graph.language actions w.graph.nodes (served a.store limit 0)) tables
        w'.graph) Never w := by
    unfold Scan.run
    rw [wpE_bind, wpE_lift]
    refine wp_mono (wp_pages_progress h) fun columns w' hp => ?_
    obtain ⟨tables, htables, hget⟩ := get?_tablesOf (by rw [hp.columns.names]; exact hn)
    rw [htables, wpE_except]
    exact ⟨hp.orderly, hp.registers hget⟩
  obtain ⟨tables, w', hrun, ho, hreg⟩ := exists_of_wpE hrun
  refine ⟨tables, w', hrun, ho, hreg, fun hknown hsame => told_eq_reads ?_ hsame⟩
  intro v hv r hr n hnode
  obtain ⟨k, hk, rfl⟩ := Option.map_eq_some_iff.1 hnode
  exact hknown v hv r hr k hk

theorem run_registers_third :
    ∃ tables w',
      (Scan.run ⟨.default, twoFiles.toStore⟩ 1 [⟨"third", .node fun n => n.id == ⟨3⟩⟩]).run.run
        (.new ⟨.default, twoFiles.toStore⟩ ⟨"plain", [], []⟩) = (.ok tables, w') ∧
      ∀ id, w'.graph.registry.contains id = true ↔ id = ⟨3⟩ := by
  obtain ⟨tables, w', hrun, -, hreg, -⟩ :=
    @run_registers_matches ⟨.default, twoFiles.toStore⟩ 1 [⟨"third", .node fun n => n.id == ⟨3⟩⟩]
      (.new ⟨.default, twoFiles.toStore⟩ ⟨"plain", [], []⟩)
      (Context.orderly_new fun _ h => absurd h List.not_mem_nil) (by decide)
  rw [twoFiles.served_toStore Nat.one_pos] at hreg
  have hids : ((told ⟨"plain", [], []⟩ [⟨"third", .node fun n => n.id == ⟨3⟩⟩] (fun _ => none)
      twoFiles.vertices.toList).filter
        (matched [⟨"third", .node fun n => n.id == ⟨3⟩⟩])).map Reading.id = [⟨3⟩] := rfl
  refine ⟨tables, w', hrun, fun id => (hreg.contains id).trans ⟨?_, ?_⟩⟩
  · rintro (hid | ⟨r, hr, hm, rfl⟩)
    · cases hid
    · have hr := List.mem_map_of_mem (f := Reading.id) (List.mem_filter.2 ⟨hr, hm⟩)
      exact List.mem_singleton.1 (hids ▸ hr)
  · rintro rfl
    obtain ⟨r, hr, hid⟩ := List.mem_map.1 (hids.symm ▸ List.mem_singleton_self (⟨3⟩ : VertexId))
    exact Or.inr ⟨r, (List.mem_filter.1 hr).1, (List.mem_filter.1 hr).2, hid⟩

end Scan

end CodeGraph
