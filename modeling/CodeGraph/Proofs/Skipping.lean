import CodeGraph.Proofs.Classification
import CodeGraph.Proofs.Outcomes
import CodeGraph.Proofs.PairedTables
import CodeGraph.Proofs.Parts

/-!
# What a scan skips

A scan goes over every vertex that the store serves, one after another, and skips those that cannot be
resolved and no others. Each other vertex is judged (`Scan.Judged`): its pair is built and staged, and
every action is asked about its value. A column lists what the action of the column accepts, in the order
in which it was served, and the notices tell which vertices were skipped and which trees were unreadable
(`Scan.Sifts`). Nothing is asked of the listing, the registry or the language: vertices may come twice, and
a vertex that is registered may look different.
-/

namespace CodeGraph

def Vertex.notices (v : Vertex) : List Notice :=
  if v.Fails then [.vertexSkipped] else if v.Unreadable then [.astUnreadable] else []

namespace Context

theorem wpE_buildVertex_notices (v : Vertex) (c : Context) :
    wpE (buildVertex v) (fun _ c' => c'.notices.toList = c.notices.toList ++ v.notices)
      (fun _ _ => True) c := by
  unfold buildVertex Vertex.notices
  by_cases hcode : v.label = codeLabel
  · rw [if_pos hcode]
    unfold buildCode
    cases hraw : v.property? "json" with
    | none => trivial
    | some raw =>
      have hok : ¬ v.Fails := fun h => h.elim (fun h => h.1 hcode) fun h => nomatch hraw.symm.trans h.2
      rw [if_neg hok]
      simp only [Vertex.unreadable_iff, hcode, hraw, true_and, Option.any_some, Option.isNone_iff_eq_none]
      show wpE (_ >>= _) _ _ _
      rw [wpE_bind, wpE_lift]
      unfold buildTree
      cases readTree? raw with
      | none => exact Array.toList_push
      | some j => exact (List.append_nil _).symm
  · rw [if_neg hcode]
    by_cases hfile : v.label = fileLabel
    · have hok : ¬ v.Fails := fun h => h.elim (fun h => h.2 hfile) fun h => hcode h.1
      rw [if_pos hfile, if_neg hok, if_neg fun h => hcode h.1]
      exact (List.append_nil _).symm
    · rw [if_neg hfile]
      trivial

theorem wpE_resolve_notices (v : Vertex) (c : Context) :
    wpE (resolve v .bypass) (fun _ c' => c'.notices.toList = c.notices.toList ++ v.notices)
      (fun _ _ => True) c := by
  unfold resolve
  rw [wpE_bind]
  exact wpE_mono (wpE_buildVertex_notices v c) (fun _ _ h => h) fun _ _ h => h

end Context

namespace Scan
variable {actions : List ScanAction} {columns : List DataColumn} {c : Context}

theorem wp_answers_eq (actions : List ScanAction) (v : Value) (c : Context) :
    wp (answers actions v) (fun yes c' => yes = (actions.map fun a => a.accepts.acceptedIn c v) ∧
      ∃ ids, c' = c.touching ids) c := by
  unfold answers
  induction actions generalizing c with
  | nil => exact ⟨rfl, [], rfl⟩
  | cons a actions ih =>
    rw [List.mapM_cons, wp_bind]
    refine wp_mono (a.accepts.wp_test_eq v c) fun yes c' h => ?_
    obtain ⟨rfl, rfl⟩ := h
    rw [wp_bind]
    refine wp_mono (ih (c.touching (a.accepts.uses c.bindings c.nodeAt? v))) fun rest c' h => ?_
    obtain ⟨rfl, ids, rfl⟩ := h
    refine ⟨?_, _, (c.touching_append _ ids).symm⟩
    rw [List.map_cons, ValuePredicate.acceptedIn_eq]
    simp only [ValuePredicate.acceptedIn_eq, Context.nodeAt?_touching]
    rfl

/-- A vertex that a scan has resolved, and the state in which the actions are asked about it: nothing but
its pair has just been staged. -/
structure Judged where
  vertex : Vertex
  built : Registration
  before : Context
  resolved : Context
  run : (Context.resolve vertex .bypass).run.run before = (.ok built, resolved)

namespace Judged
variable (x : Judged)

def context : Context := { x.resolved with staged := x.resolved.staged.insert x.vertex.id x.built }

def accepted (a : ScanAction) : Bool := a.accepts.acceptedIn x.context x.built.value

def kept : Registration := (x.context.registry.peek? x.vertex.id).getD x.built

end Judged

/-- The column lists what its action accepts, in the order in which it was judged. -/
def Gathers (judged : List Judged) (a : ScanAction) (column : DataColumn) : Prop :=
  column.name = a.name ∧
    column.cells.toList = (judged.filter (·.accepted a)).map fun x => .value x.kept.value

section
variable {judged : List Judged} {a : ScanAction} {column : DataColumn} (x : Judged)

theorem Gathers.push (h : Gathers judged a column) (hx : x.accepted a = true) (b : Bindings) :
    Gathers (judged ++ [x]) a (column.push b (.value x.kept.value)) := by
  have hone : [x].filter (·.accepted a) = [x] := List.filter_eq_self.2 (by simpa using hx)
  refine ⟨h.1, ?_⟩
  show (column.cells.push _).toList = _
  rw [Array.toList_push, h.2, List.filter_append, List.map_append, hone]
  rfl

theorem Gathers.skip (h : Gathers judged a column) (hx : ¬ x.accepted a = true) :
    Gathers (judged ++ [x]) a column := by
  have hone : [x].filter (·.accepted a) = [] := List.filter_eq_nil_iff.2 (by simpa using hx)
  refine ⟨h.1, ?_⟩
  rw [h.2, List.filter_append, hone, List.append_nil]

theorem gathers_addMatches (h : List.Forall₂ (Gathers judged) actions columns) (b : Bindings) :
    List.Forall₂ (Gathers (judged ++ [x])) actions
      (addMatches b x.kept.value columns (actions.map x.accepted)) := by
  induction h with
  | nil => exact .nil
  | @cons a column actions columns ha _ ih =>
    refine .cons ?_ ih
    show Gathers _ a (if x.accepted a = true then _ else _)
    split
    · next hx => exact ha.push x hx b
    · next hx => exact ha.skip x hx

theorem gathers_skip (h : List.Forall₂ (Gathers judged) actions columns)
    (hx : (actions.map x.accepted).any id = false) :
    List.Forall₂ (Gathers (judged ++ [x])) actions columns := by
  induction h with
  | nil => exact .nil
  | cons ha _ ih =>
    rw [List.map_cons, List.any_cons, Bool.or_eq_false_iff] at hx
    exact .cons (ha.skip x (Bool.eq_false_iff.1 hx.1)) (ih hx.2)

end

/-- What a scan has come to: of the vertices gone over it has judged those that can be resolved, and it has
told of the others. -/
structure Sifts (start : Context) (actions : List ScanAction) (vs : List Vertex) (judged : List Judged)
    (columns : List DataColumn) (c : Context) : Prop where
  vertices : judged.map (·.vertex) = vs.filter fun v => ¬ v.Fails
  language : c.language = start.language ∧ ∀ x ∈ judged, x.before.language = start.language
  columns : List.Forall₂ (Gathers judged) actions columns
  notices : c.notices.toList.filter (· ≠ .pageRejected) =
    start.notices.toList.filter (· ≠ .pageRejected) ++ vs.flatMap Vertex.notices

section
variable {start : Context} {vs : List Vertex} {judged : List Judged}

theorem sifts_start (c : Context) (actions : List ScanAction) :
    Sifts c actions [] [] (actions.map fun a => .new a.name true) c where
  vertices := rfl
  language := ⟨rfl, fun _ hx => absurd hx List.not_mem_nil⟩
  columns := by
    rw [List.forall₂_map_right_iff]
    exact List.forall₂_same.2 fun a _ => ⟨rfl, rfl⟩
  notices := (List.append_nil _).symm

theorem notices_ne_pageRejected (v : Vertex) : v.notices.filter (· ≠ .pageRejected) = v.notices := by
  unfold Vertex.notices
  split
  · rfl
  · split <;> rfl

theorem Sifts.told {c' : Context} (h : Sifts start actions vs judged columns c) {v : Vertex}
    (hn : c'.notices.toList = c.notices.toList ++ v.notices) :
    c'.notices.toList.filter (· ≠ .pageRejected) =
      start.notices.toList.filter (· ≠ .pageRejected) ++ (vs ++ [v]).flatMap Vertex.notices := by
  rw [hn, List.filter_append, h.notices, notices_ne_pageRejected, List.append_assoc, List.flatMap_append,
    List.flatMap_singleton]

/-- Going over a vertex judges it if it can be resolved, and tells of it if not. -/
theorem wp_classify_sifts (h : Sifts start actions vs judged columns c) (v : Vertex) :
    wp (classify actions columns v) (fun columns' c' =>
      ∃ judged', Sifts start actions (vs ++ [v]) judged' columns' c') c := by
  have hresolve := wpE_and_run
    (wpE_and (Context.wpE_resolve_undisturbed v c) (Context.wpE_resolve_notices v c))
  unfold classify
  rw [wp_bind, wp_run]
  refine wpE_mono hresolve (fun built c₁ hr => ?_) fun e c₁ he => ?_
  · obtain ⟨hrun, ⟨hv, hid, hc⟩, hnotices⟩ := hr
    let x : Judged := ⟨v, built, c, c₁, hrun⟩
    have hok : ¬ v.Fails := fun h => nomatch hv.symm.trans (Vertex.resolves_eq_false_iff.2 h)
    have hone : [v].filter (fun v => ¬ v.Fails) = [v] := List.filter_eq_self.2 (by simpa using hok)
    have hvertices : (judged ++ [x]).map (·.vertex) = (vs ++ [v]).filter fun v => ¬ v.Fails := by
      rw [List.map_append, h.vertices, List.filter_append, hone]
      rfl
    have hlanguage : c₁.language = start.language ∧ ∀ y ∈ judged ++ [x], y.before.language = start.language := by
      refine ⟨hc.language.trans h.language.1, fun y hy => ?_⟩
      rcases List.mem_append.1 hy with hy | hy
      · exact h.language.2 y hy
      · rw [List.mem_singleton.1 hy]
        exact h.language.1
    show wp (Context.stage built >>= _) _ c₁
    rw [wp_bind, Context.wp_stage, wp_bind, hid]
    refine wp_mono (wp_answers_eq actions built.value x.context) fun yes c₂ hy => ?_
    obtain ⟨rfl, ids, rfl⟩ := hy
    rw [wp_bind, Context.wp_unstage]
    split
    · have hkept : ((x.context.touching ids).registry.register built).1 = x.kept := by
        rw [Registry.register_fst, hid]
        show Option.getD ((x.context.registry.touchAll ids).peek? v.id) built = _
        rw [Registry.peek?_touchAll]
        rfl
      have hcols := gathers_addMatches x h.columns (x.context.touching ids).bindings
      rw [← hkept] at hcols
      exact ⟨judged ++ [x], hvertices, hlanguage, hcols, h.told hnotices⟩
    · next hany =>
      exact ⟨judged ++ [x], hvertices, hlanguage, gathers_skip x h.columns (Bool.eq_false_iff.2 hany),
        h.told hnotices⟩
  · obtain ⟨hv, rfl⟩ := he
    have hfails : v.Fails := Vertex.resolves_eq_false_iff.1 hv
    refine ⟨judged, ?_, h.language, h.columns, h.told ?_⟩
    · rw [h.vertices, List.filter_append, List.filter_cons_of_neg (by simpa using hfails), List.filter_nil,
        List.append_nil]
    · unfold Vertex.notices
      rw [if_pos hfails]
      exact Array.toList_push

theorem Sifts.reject (h : Sifts start actions vs judged columns c) :
    Sifts start actions vs judged columns { c with notices := c.notices.push .pageRejected } where
  vertices := h.vertices
  language := h.language
  columns := h.columns
  notices := by
    show (c.notices.push _).toList.filter _ = _
    rw [Array.toList_push, List.filter_append, h.notices]
    exact List.append_nil _

theorem Sifts.names (h : Sifts start actions vs judged columns c) :
    columns.map (·.name) = actions.map (·.name) :=
  (map_eq_of_forall₂ h.columns fun _ _ hx => hx.1.symm).symm

theorem Sifts.column (h : Sifts start actions vs judged columns c) {a : ScanAction} (ha : a ∈ actions) :
    ∃ column ∈ columns, Gathers judged a column := by
  have hcols := h.columns
  clear h
  induction hcols with
  | nil => cases ha
  | @cons b column _ _ hb _ ih =>
    rcases List.mem_cons.1 ha with rfl | ha
    · exact ⟨column, List.mem_cons_self .., hb⟩
    · obtain ⟨column, hmem, h⟩ := ih ha
      exact ⟨column, List.mem_cons_of_mem _ hmem, h⟩

end

theorem exists_run_sifts (a : App) (limit : Nat) (w : World) (hn : (actions.map (·.name)).Nodup) :
    ∃ tables w' judged columns, (run a limit actions).run.run w = (.ok tables, w') ∧
      Sifts w.graph actions (served a.store limit 0) judged columns w'.graph ∧
      ∀ x ∈ actions, ∃ column, tables.get? x.name = some (.ofColumn x.name (.data column)) ∧
        Gathers judged x column := by
  have hrun : wpE (run a limit actions) (fun tables w' => ∃ judged columns,
      Sifts w.graph actions (served a.store limit 0) judged columns w'.graph ∧
      ∀ x ∈ actions, ∃ column, tables.get? x.name = some (.ofColumn x.name (.data column)) ∧
        Gathers judged x column) Never w := by
    unfold run
    rw [wpE_bind, wpE_lift]
    refine wp_mono (wp_pages (fun done columns c => ∃ judged, Sifts w.graph actions done judged columns c)
      (fun done columns c ⟨judged, h⟩ => ⟨judged, h.reject⟩)
      (fun done v columns c _ ⟨judged, h⟩ => wp_classify_sifts h v) ⟨[], sifts_start w.graph actions⟩)
      fun columns w' ⟨judged, h⟩ => ?_
    obtain ⟨tables, htables, hget⟩ := get?_tablesOf (h.names.symm ▸ hn)
    rw [htables, wpE_except]
    refine ⟨judged, columns, h, fun x hx => ?_⟩
    obtain ⟨column, hmem, hgathers⟩ := h.column hx
    exact ⟨column, (hget _ _).2 ⟨column, hmem, hgathers.1, rfl⟩, hgathers⟩
  obtain ⟨tables, w', hrun, judged, columns, h⟩ := exists_of_wpE hrun
  exact ⟨tables, w', judged, columns, hrun, h⟩

end Scan

namespace Context

/-- Whether a vertex can be resolved is a matter of the vertex alone. If not, the registered and the staged
pairs stay as they are, and so they do if the pair is not to be kept. If so, what is built is given, but
for a registered pair that takes its place. In place of an unreadable tree a single placeholder is built,
and it is bound to the vertex, as no object is bound before it is built. So a scan judges all the vertices
that it is served but those that cannot be resolved, and tells of these. -/
theorem resolution_fails_by_vertex_alone (v : Vertex) (policy : CachePolicy) (c : Context) :
    ((∃ e, ((resolve v policy).run.run c).1 = .error e) ↔ v.Fails) ∧
    (c.registry.peek? v.id = none →
      ((∃ e, ((lookup (.vertex v)).run.run c).1 = .error e) ↔ v.Fails)) ∧
    (∀ e c', (resolve v policy).run.run c = (.error e, c') ∨ (lookup (.vertex v)).run.run c = (.error e, c') →
      c'.registry = c.registry ∧ c'.staged = c.staged) ∧
    (∀ x c', (resolve v .bypass).run.run c = (x, c') → c'.registry = c.registry ∧ c'.staged = c.staged) ∧
    (¬ v.Fails → ∃ built c',
      (resolve v policy).run.run c = (.ok (chosen policy (c.registry.peek? v.id) built), c') ∧
      (policy = .store → c.registry.peek? v.id = none →
        (lookup (.vertex v)).run.run c = (.ok built, c')) ∧
      built.node.vertex = v ∧
      (v.Unreadable → built.value = .node (.built c.bindings.serial) (.stub invalidIdentifier) [] ∧
        (c.bindings.Unbuilt → c'.bindings.vertex? built.value = some v.id))) ∧
    (∀ l capacity calls, l.Shares → (Access.after calls (new l capacity)).bindings.Unbuilt) ∧
    ∀ a limit (actions : List ScanAction) w, (actions.map (·.name)).Nodup →
      ∃ tables w' judged columns, (Scan.run a limit actions).run.run w = (.ok tables, w') ∧
        Scan.Sifts w.graph actions (Scan.served a.store limit 0) judged columns w'.graph ∧
        ∀ x ∈ actions, ∃ column, tables.get? x.name = some (.ofColumn x.name (.data column)) ∧
          Scan.Gathers judged x column := by
  refine ⟨resolve_error_iff, fun hnew => ?_, fun e c' h => ?_, fun x c' h => ?_, fun hv => ?_,
    fun l capacity calls hl => ?_, fun a limit actions w hn => Scan.exists_run_sifts a limit w hn⟩
  · rw [lookup_vertex_eq hnew]
    exact resolve_error_iff
  · rw [h.elim eq_of_resolve_error eq_of_lookup_error]
    exact ⟨rfl, rfl⟩
  · have hc := undisturbed_of_resolve_bypass h
    exact ⟨hc.registry, hc.staged⟩
  · obtain ⟨built, c', hrun, hnode, hunreadable⟩ := exists_of_not_fails hv policy c
    refine ⟨built, c', hrun, fun hp hnew => ?_, hnode, hunreadable⟩
    subst hp
    rw [hnew] at hrun
    exact (lookup_vertex_eq hnew).trans hrun
  · exact Access.unbuilt_after hl (fun _ _ => Std.HashMap.getElem?_empty) calls

/-- A file is registered under the id of a line of code whose tree is a number. Resolving the code keeps
the pair of the file, so that no placeholder comes of it. -/
theorem registered_pair_hides_placeholder :
    let file := Vertex.bare ⟨1⟩ fileLabel
    let code := (Vertex.bare ⟨1⟩ codeLabel).withProperty "json" (.num (.natural 5))
    code.Unreadable ∧ ∃ kept c r c',
      (resolve file .store).run.run (new ⟨"plain", [], []⟩ none) = (.ok kept, c) ∧
      (resolve code .store).run.run c = (.ok r, c') ∧ r.value.identifier = "file" ∧
      r.value.header ≠ .stub invalidIdentifier :=
  ⟨⟨rfl, _, rfl, rfl, nofun⟩, _, _, _, _, rfl, rfl, rfl, nofun⟩

end Context

end CodeGraph
