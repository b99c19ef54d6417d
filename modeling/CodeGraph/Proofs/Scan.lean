import Mathlib.Data.List.Forall2
import CodeGraph.Proofs.Listing
import CodeGraph.Query.Scan

/-!
# What a scan collects

`Scan.Collected` is the invariant of a scan: each column lists, of the readings met so far, those
that the action of the column accepts. One vertex keeps it and adds its reading, whatever the
registry held (`wp_classify`); so does a page and so do all pages (`wp_pages`). A scan meets the
vertices that the store serves before the first page that is empty or rejected (`Scan.served`); of a
store that cuts a listing into pages these are a first part of the listing, and all of it if no page
is rejected.
-/

namespace CodeGraph

namespace Context
variable {k : Catalog} {c c' : Context}

theorem Faithful.unstage (h : c.Faithful k) {built : Registration}
    (ha : ({ c with staged := c.staged.insert built.id built } : Context).Alike c') :
    c.Grows { c' with staged := c'.staged.erase built.id } ∧
      Faithful k { c' with staged := c'.staged.erase built.id } := by
  have hg : c.Grows { c' with staged := c'.staged.erase built.id } :=
    ⟨ha.grows.language, ha.grows.bindings, ha.grows.unbuilt, ha.grows.capacity, ha.grows.kept⟩
  exact ⟨hg, h.of_entries hg fun id x hx => by rw [← ha.peek? id]; exact hx⟩

end Context

namespace Scan
variable {k : Catalog} {c c' : Context} {actions : List ScanAction} {columns : List DataColumn}
  {rs : List Reading} {r : Reading} {b b' : Bindings}

/-- Each column has the name of its action and lists the readings that the action accepts. -/
def Collected (b : Bindings) (rs : List Reading) (actions : List ScanAction)
    (columns : List DataColumn) : Prop :=
  List.Forall₂ (fun a col => col.name = a.name ∧ col.Lists b (rs.filter (·.satisfies a.accepts)))
    actions columns

theorem collected_new (b : Bindings) (actions : List ScanAction) :
    Collected b [] actions (actions.map fun a => .new a.name true) := by
  induction actions with
  | nil => exact .nil
  | cons a actions ih => exact .cons ⟨rfl, DataColumn.lists_new b a.name⟩ ih

theorem Collected.mono (h : Collected b rs actions columns) (hrs : ∀ r ∈ rs, r.Owned)
    (he : b.Extends b') : Collected b' rs actions columns :=
  List.Forall₂.imp (fun _ _ h => ⟨h.1, h.2.mono (fun r hr => hrs r (List.mem_of_mem_filter hr)) he⟩) h

theorem Collected.addMatches (h : Collected b rs actions columns) (hr : r.Owned) {v : Value}
    (hv : b.view v = r.value) :
    Collected b (rs ++ [r]) actions
      (addMatches b v columns (actions.map fun a => r.satisfies a.accepts)) := by
  induction h with
  | nil => exact .nil
  | @cons a col actions columns ha _ ih =>
    refine .cons ?_ ih
    show (if r.satisfies a.accepts = true then col.push b (.value v) else col).name = a.name ∧
      DataColumn.Lists b (if r.satisfies a.accepts = true then col.push b (.value v) else col) _
    rw [List.filter_append, List.filter_cons, List.filter_nil]
    by_cases hs : r.satisfies a.accepts = true
    · rw [if_pos hs, if_pos hs]
      exact ⟨ha.1, ha.2.push hr hv⟩
    · rw [if_neg hs, if_neg hs, List.append_nil]
      exact ha

theorem Collected.skip (h : Collected b rs actions columns)
    (hr : (actions.map fun a => r.satisfies a.accepts).any id = false) :
    Collected b (rs ++ [r]) actions columns := by
  induction h with
  | nil => exact .nil
  | @cons a col actions columns ha _ ih =>
    rw [List.map_cons, List.any_cons, Bool.or_eq_false_iff] at hr
    have hs : ¬ r.satisfies a.accepts = true := Bool.eq_false_iff.1 hr.1
    refine .cons ⟨ha.1, ?_⟩ (ih hr.2)
    rw [List.filter_append, List.filter_cons, if_neg hs, List.filter_nil, List.append_nil]
    exact ha.2

/-- What some action accepts is registered. -/
def Kept (c : Context) (rs : List Reading) (actions : List ScanAction) : Prop :=
  ∀ r ∈ rs, (actions.any fun a => r.satisfies a.accepts) = true → c.registry.contains r.id = true

theorem Kept.grows (h : Kept c rs actions) (hg : c.Grows c') (hn : c.registry.capacity = none) :
    Kept c' rs actions := fun r hr ha => hg.kept hn r.id (h r hr ha)

theorem Kept.append {rs' : List Reading} (h : Kept c rs actions) (h' : Kept c rs' actions) :
    Kept c (rs ++ rs') actions := fun r hr ha => (List.mem_append.1 hr).elim (h r · ha) (h' r · ha)

theorem wp_answers {v : Value} {id : VertexId} {n : GraphNode} (hv : c.bindings.Owns id v)
    (hn : c.nodeAt? id = some n) (actions : List ScanAction) :
    wp (answers actions v) (fun yes c' =>
      yes = (actions.map fun a => a.accepts.holds n (c.bindings.view v)) ∧ c.Alike c') c := by
  unfold answers
  induction actions generalizing c with
  | nil => exact ⟨rfl, .refl c⟩
  | cons a actions ih =>
    rw [List.mapM_cons, wp_bind]
    refine wp_mono (a.accepts.wp_test hv hn) fun yes c' h => ?_
    obtain ⟨rfl, ha⟩ := h
    rw [wp_bind]
    have hrest := ih (c := c') (by rw [ha.bindings]; exact hv) ((ha.nodeAt? id).trans hn)
    rw [ha.bindings] at hrest
    exact wp_mono hrest fun yes c'' h => ⟨by rw [h.1]; rfl, ha.trans h.2⟩

theorem nodeAt?_stage (h : c.Faithful k) {built : Registration} (hb : built.Faithful c)
    (hfind : k.find built.id = some built.node.vertex) :
    ({ c with staged := c.staged.insert built.id built } : Context).nodeAt? built.id =
      some built.node := by
  unfold Context.nodeAt?
  show ((c.registry.peek? built.id).or (c.staged.insert built.id built)[built.id]?).map _ = _
  cases hp : c.registry.peek? built.id with
  | none => rw [Std.HashMap.getElem?_insert_self]; rfl
  | some r =>
    have hr := h.read hp
    rw [Catalog.read_of_find hfind, show c.language.read _ = _ from hb, Option.some.injEq,
      Reading.mk.injEq] at hr
    rw [hr.1]
    rfl

theorem wp_classify (h : c.Faithful k) {v : Vertex} (hv : k.find v.id = some v)
    (hrs : ∀ r ∈ rs, r.Owned) (hc : Collected c.bindings rs actions columns) :
    wp (classify actions columns v) (fun columns' c' => c.Grows c' ∧ c'.Faithful k ∧
      Collected c'.bindings (rs ++ (c.language.read v).toList) actions columns' ∧
      Kept c' (c.language.read v).toList actions) c := by
  unfold classify
  rw [wp_bind, wp_run]
  refine wpE_mono (Context.wpE_resolve_bypass h.fresh h.unbuilt v) (fun built c₁ hr => ?_)
    fun e c₁ he => ?_
  · obtain ⟨hg, hreg, hstaged, hnode, hfaith⟩ := hr
    have hid : built.id = v.id := congrArg Vertex.id hnode
    have hfind : k.find built.id = some built.node.vertex := by rw [hid, hnode]; exact hv
    have hf₁ : c₁.Faithful k := h.of_entries hg fun id x hx => by rwa [hreg] at hx
    have hread : c.language.read v = some ⟨built.node, c₁.bindings.view built.value⟩ := by
      rw [← hnode, ← hg.language]; exact hfaith
    have hc₁ := hc.mono hrs hg.bindings
    have howned : Reading.Owned ⟨built.node, c₁.bindings.view built.value⟩ :=
      Reading.owned_of_read hread
    rw [hread, Option.toList_some]
    -- while the predicates are asked the vertex is staged, so they find its node though it is not
    -- registered yet
    show wp (Context.stage built >>= _) _ c₁
    rw [wp_bind, Context.wp_stage, wp_bind]
    refine wp_mono (wp_answers (c := { c₁ with staged := c₁.staged.insert built.id built })
      hfaith.owns (nodeAt?_stage hf₁ hfaith hfind) actions) fun yes c₂ hy => ?_
    obtain ⟨rfl, ha⟩ := hy
    have hb : c₂.bindings = c₁.bindings := ha.bindings
    obtain ⟨hg₂, hf₂⟩ := hf₁.unstage ha
    rw [wp_bind, Context.wp_unstage]
    split
    · rw [wp_bind]
      refine wp_mono (Context.wp_register hf₂ (hfaith.mono hg₂) hfind) fun kept c₃ hk => ?_
      obtain ⟨hg₃, hf₃, -, hself, hkept, hview⟩ := hk
      refine ⟨(hg.trans hg₂).trans hg₃, hf₃, ?_, fun r hr _ => ?_⟩
      · refine (hc₁.mono hrs (hg₂.trans hg₃).bindings).addMatches howned ?_
        rw [hview]
        exact congrArg (Bindings.view · built.value) hb
      · rw [List.mem_singleton.1 hr]
        show (c₃.registry.peek? built.id).isSome = true
        rw [hself]
        rfl
    · next hany =>
      rw [List.any_map] at hany
      refine ⟨hg.trans hg₂, hf₂, ?_, fun r hr ha => ?_⟩
      · refine (hc₁.mono hrs hg₂.bindings).skip ?_
        rw [List.any_map]
        exact Bool.eq_false_iff.2 hany
      · rw [List.mem_singleton.1 hr] at ha
        exact absurd ha hany
  · obtain ⟨rfl, hnone⟩ := he
    rw [hnone, Option.toList_none, List.append_nil]
    have hg : c₁.Grows { c₁ with notices := c₁.notices.push .vertexSkipped } :=
      .of_registry_eq rfl rfl rfl
    exact ⟨hg, h.of_entries hg fun _ _ hx => hx, hc, fun r hr => absurd hr List.not_mem_nil⟩

/-- The vertices that a store serves from an offset on, before the first page that is empty or
rejected. -/
def served (s : GraphStore) (limit offset : Nat) : List Vertex :=
  match h : s.vertices offset limit with
  | .error _ => []
  | .ok page =>
    if hp : page = [] then []
    else
      have : offset < s.extent :=
        Nat.lt_of_not_le fun hle => hp (s.ends offset limit page hle h)
      have : 0 < page.length := List.length_pos_iff.mpr hp
      page ++ served s limit (offset + page.length)
termination_by s.extent - offset

theorem served_of_error {s : GraphStore} {limit offset : Nat} {e : Error}
    (h : s.vertices offset limit = .error e) : served s limit offset = [] := by
  rw [served]
  split
  · rfl
  · next hp => rw [h] at hp; cases hp

theorem served_of_ok {s : GraphStore} {limit offset : Nat} {page : List Vertex}
    (h : s.vertices offset limit = .ok page) :
    served s limit offset =
      if page = [] then [] else page ++ served s limit (offset + page.length) := by
  rw [served]
  split
  · next hp => rw [h] at hp; cases hp
  · next hp =>
    rw [h] at hp
    cases hp
    split <;> rfl

/-- Going over all pages keeps what going over a vertex and the notice of a rejected page keep. The
invariant speaks of the vertices met so far. -/
theorem wp_pages {s : GraphStore} {limit offset : Nat} {w : World}
    (I : List Vertex → List DataColumn → Context → Prop)
    (hnote : ∀ done cols c, I done cols c →
      I done cols { c with notices := c.notices.push .pageRejected })
    (hstep : ∀ done v cols c, v ∈ served s limit offset → I done cols c →
      wp (classify actions cols v) (I (done ++ [v])) c)
    (h : I [] columns w.graph) :
    wp (pages s limit actions columns offset)
      (fun columns' w' => I (served s limit offset) columns' w'.graph) w := by
  induction hn : s.extent - offset using Nat.strongRecOn generalizing offset w columns I with
  | ind n ih =>
    rw [pages]
    split
    · next e he =>
      rw [served_of_error he]
      exact hnote _ _ _ h
    · next page hpage =>
      rw [served_of_ok hpage] at hstep ⊢
      rw [wp_bind, wp_record, wp_bind, wp_count]
      split
      · exact h
      · next hne =>
        rw [if_neg hne] at hstep
        -- a page that is not empty moves the offset towards the end
        have hlt : offset < s.extent :=
          Nat.lt_of_not_le fun hle => hne (s.ends offset limit page hle hpage)
        have hpos : 0 < page.length := List.length_pos_iff.mpr hne
        have hfold : wp (classifyPage actions columns page) (I page) w.graph :=
          wp_foldlM I (fun done v cols c hv => hstep done v cols c (List.mem_append_left _ hv)) h
        rw [wp_bind, wp_onGraph]
        refine wp_mono hfold fun columns' c' hpg => ?_
        rw [wp_bind, wp_count]
        refine ih _ (by omega) (fun done => I (page ++ done)) (fun done => hnote (page ++ done))
          (fun done v cols c hv hI => ?_) (by rw [List.append_nil]; exact hpg) rfl
        rw [← List.append_assoc]
        exact hstep (page ++ done) v cols c (List.mem_append_right _ hv) hI

theorem owned_reads (l : Language) (vs : List Vertex) : ∀ r ∈ vs.filterMap l.read, r.Owned := by
  intro r hr
  obtain ⟨v, -, hv⟩ := List.mem_filterMap.1 hr
  exact Reading.owned_of_read hv

/-- All pages together collect what the served vertices stand for, and what some action accepts stays
registered if nothing is forgotten. -/
theorem wp_collect {s : GraphStore} {limit : Nat} {w : World} (h : w.graph.Faithful k)
    (hserved : ∀ v ∈ served s limit 0, k.find v.id = some v) :
    wp (pages s limit actions (actions.map fun a => .new a.name true) 0)
      (fun columns w' => w.graph.Grows w'.graph ∧ w'.graph.Faithful k ∧
        Collected w'.graph.bindings ((served s limit 0).filterMap w.graph.language.read) actions
          columns ∧
        (w.graph.registry.capacity = none →
          Kept w'.graph ((served s limit 0).filterMap w.graph.language.read) actions)) w := by
  refine wp_pages (fun done cols c => w.graph.Grows c ∧ c.Faithful k ∧
    Collected c.bindings (done.filterMap w.graph.language.read) actions cols ∧
    (w.graph.registry.capacity = none → Kept c (done.filterMap w.graph.language.read) actions)) ?_ ?_
    ⟨.refl _, h, collected_new .., fun _ r hr => absurd hr List.not_mem_nil⟩
  · intro done cols c hI
    have hg : c.Grows { c with notices := c.notices.push .pageRejected } := .of_registry_eq rfl rfl rfl
    exact ⟨hI.1.trans hg, hI.2.1.of_entries hg fun _ _ hx => hx, hI.2.2⟩
  · intro done v cols c hv hI
    obtain ⟨hg, hf, hcols, hkept⟩ := hI
    refine wp_mono (wp_classify hf (hserved v hv) (owned_reads _ done) hcols) fun cols' c' hstep => ?_
    obtain ⟨hg', hf', hcols', hkept'⟩ := hstep
    have hone : [v].filterMap w.graph.language.read = (w.graph.language.read v).toList := by
      rw [List.filterMap_cons, List.filterMap_nil]
      cases w.graph.language.read v <;> rfl
    rw [hg.language, ← hone] at hcols' hkept'
    rw [List.filterMap_append]
    refine ⟨hg.trans hg', hf', hcols', fun hn => ((hkept hn).grows hg' ?_).append hkept'⟩
    exact hg.capacity.trans hn

theorem length_mapM {σ α β : Type} {f : α → StateM σ β} {xs : List α} {s : σ} :
    wp (xs.mapM f) (fun ys _ => ys.length = xs.length) s := by
  induction xs generalizing s with
  | nil => rfl
  | cons x xs ih =>
    rw [List.mapM_cons, wp_bind]
    refine wp_mono (Q := fun _ _ => True) trivial fun y s' _ => ?_
    rw [wp_bind]
    exact wp_mono ih fun ys s'' h => congrArg (· + 1) h

theorem names_addMatches {b : Bindings} {v : Value} {yes : List Bool}
    (h : yes.length = columns.length) :
    (addMatches b v columns yes).map (·.name) = columns.map (·.name) := by
  unfold addMatches
  induction columns generalizing yes with
  | nil => rfl
  | cons col columns ih =>
    cases yes with
    | nil => cases h
    | cons y yes =>
      rw [List.zipWith_cons_cons, List.map_cons, List.map_cons, ih (Nat.succ.inj h)]
      cases y <;> rfl

theorem wp_names (s : GraphStore) (limit : Nat) (w : World) :
    wp (pages s limit actions (actions.map fun a => .new a.name true) 0)
      (fun columns _ => columns.map (·.name) = actions.map (·.name)) w := by
  refine wp_pages (fun _ cols _ => cols.map (·.name) = actions.map (·.name))
    (fun _ _ _ h => h) (fun _ v cols c _ h => ?_) (by rw [List.map_map]; rfl)
  have hlen : actions.length = cols.length := by
    have := congrArg List.length h
    rw [List.length_map, List.length_map] at this
    exact this.symm
  unfold classify
  rw [wp_bind, wp_run]
  refine wpE_mono wpE_trivial (fun built c₁ _ => ?_) fun e c₁ _ => h
  show wp (Context.stage built >>= _) _ c₁
  rw [wp_bind, Context.wp_stage, wp_bind]
  refine wp_mono length_mapM fun yes c₂ hyes => ?_
  rw [wp_bind, Context.wp_unstage]
  split
  · show (addMatches _ _ cols yes).map (·.name) = _
    rw [names_addMatches (hyes.trans hlen), h]
  · exact h

end Scan

end CodeGraph
