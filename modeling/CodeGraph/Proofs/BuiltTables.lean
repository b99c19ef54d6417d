import CodeGraph.Proofs.FlowSuccess
import CodeGraph.Proofs.Projection
import CodeGraph.Proofs.QueryState

/-!
# Queries of built tables

The tables of a query come from columns that a scan has filled, from predicates, and from what filters
and flows make of other tables. As long as the transforms and algorithms that a caller brings along make
built tables of built tables (`Query.Call.Builds`), every table of a query is built, be it pending, live
or the result, whatever calls were made in whatever worlds (`Query.Made.built`). Filters that retain rows
are of this kind, and so are algorithms that only record findings, such as a search.
-/

namespace CodeGraph

theorem of_foldlM_eq_ok {α β ε : Type} {P : β → Prop} {f : β → α → Except ε β} {xs : List α} {b b' : β}
    (hstep : ∀ b x b', P b → f b x = .ok b' → P b') (hb : P b) (h : xs.foldlM f b = .ok b') : P b' := by
  induction xs generalizing b with
  | nil =>
    cases h
    exact hb
  | cons x xs ih =>
    rw [List.foldlM_cons] at h
    obtain ⟨b₁, h₁, hrest⟩ := exists_of_bind_eq_ok h
    exact ih (hstep b x b₁ hb h₁) hrest

namespace Table
variable {b : Bindings} {t t' : Table} {c : Column}

theorem built_new (name : String) : (new name).Built := ⟨name, [], rfl⟩

theorem built_ofColumn (name : String) (c : Column) : (ofColumn name c).Built :=
  ⟨name, [.ofColumn name c], rfl⟩

namespace Built

theorem of_apply (h : t.Built) (e : Edit) {x : Option Column} (hok : e.apply t = .ok (x, t')) :
    t'.Built := by
  have hdistinct := h.wellFormed.distinct
  obtain ⟨name, edits, rfl⟩ := h
  refine ⟨name, edits ++ [e], ?_⟩
  have hrun := Edit.run_eq_settle hdistinct e
  rw [hok] at hrun
  unfold Edit.runAll at hrun ⊢
  rw [List.foldl_append, List.foldl_cons, List.foldl_nil, hrun]
  rfl

theorem renamed (h : t.Built) (name : String) : (t.renamed name).Built := h.of_apply (.rename name) rfl

theorem duplicate (h : t.Built) (schemaOnly : Bool) : (t.duplicate schemaOnly).Built :=
  h.of_apply (.duplicate schemaOnly) rfl

theorem addColumn (h : t.Built) (hok : t.addColumn b c = .ok t') : t'.Built :=
  h.of_apply (.addColumn b c) (by rw [Edit.apply, hok]; rfl)

theorem addRow (h : t.Built) {r : Row Ref} (hok : t.addRow b r = .ok t') : t'.Built :=
  h.of_apply (.addRow b r) (by rw [Edit.apply, hok]; rfl)

end Built

theorem built_of_project {names : List String} (hok : t.project b names = .ok t') : t'.Built :=
  of_foldlM_eq_ok (fun _ _ _ h hadd => h.addColumn hadd) (built_new t.name) hok

end Table

namespace TableSet
variable {s s' m : TableSet} {t : Table} {x : String}

/-- All tables of the set have been built. -/
def Built (s : TableSet) : Prop := ∀ x t, s.get? x = some t → t.Built

theorem built_empty : empty.Built := fun _ _ h => nomatch h

namespace Built

theorem insert (h : s.Built) (ht : t.Built) : Built ⟨s.tables.insert t.name t⟩ := by
  intro x u hu
  rw [get?_insert] at hu
  split at hu
  · cases hu
    exact ht
  · exact h x u hu

theorem erase (h : s.Built) (name : String) : Built ⟨s.tables.erase name⟩ := by
  intro x u hu
  rw [get?_erase] at hu
  split at hu
  · cases hu
  · exact h x u hu

theorem add (h : s.Built) (ht : t.Built) (hok : s.add t = .ok m) : m.Built := by
  rw [add_eq] at hok
  split at hok
  · cases hok
  · cases hok
    exact h.insert ht

theorem merge (h : s.Built) (h' : s'.Built) (hok : s.merge s' = .ok m) : m.Built := by
  unfold TableSet.merge at hok
  split at hok
  · cases hok
  · cases hok
    intro x t ht
    rw [show get? _ x = _ from Dictionary.get?_foldl_insert s'.tables s.tables x] at ht
    rcases Option.or_eq_some_iff.1 ht with ht | ⟨-, ht⟩
    · exact h' x t ht
    · exact h x t ht

end Built

end TableSet

/-! ### Scans, filters and flows -/

theorem Scan.wpE_run_built (a : App) (limit : Nat) (actions : List ScanAction) (w : World) :
    wpE (Scan.run a limit actions) (fun tables _ => tables.Built) (fun _ _ => True) w := by
  unfold Scan.run
  rw [wpE_bind, wpE_lift]
  refine wp_mono (Q := fun _ _ => True) trivial fun columns w' _ => ?_
  rw [wpE_except]
  cases h : tablesOf columns with
  | error e => trivial
  | ok tables =>
    exact of_foldlM_eq_ok (P := TableSet.Built)
      (fun _ c _ hs hadd => hs.add (Table.built_ofColumn c.name (.data c)) hadd) TableSet.built_empty h

namespace Filter
variable {t : Table} {c : Context}

/-- A transform makes built tables of built tables. -/
def Builds (f : Filter) : Prop :=
  ∀ transform, f.action = .custom transform → ∀ b t t', t.Built → transform b t = .ok t' → t'.Built

theorem builds_retain (name : String) (p : FilterPredicate) : Builds ⟨name, .retain p⟩ :=
  fun _ h => nomatch h

theorem wpE_retain_built (h : t.Built) (p : FilterPredicate) (column : String) :
    wpE (retain p column t) (fun t' _ => t'.Built) (fun _ _ => True) c := by
  unfold retain
  rw [wpE_bind, wpE_except]
  cases t.rows with
  | error e => trivial
  | ok rows =>
    refine wpE_foldlM (fun _ (t' : Table) _ => t'.Built) (fun _ r t' c' _ ht' => ?_) (h.duplicate true)
    unfold keep
    rw [wpE_bind, wpE_lift]
    refine wp_mono (Q := fun _ _ => True) trivial fun yes c'' _ => ?_
    cases yes with
    | false => exact ht'
    | true =>
      show wpE (_ >>= _) _ _ _
      rw [wpE_bind, wpE_get, wpE_except]
      cases hadd : t'.addRow c''.bindings r with
      | error e => trivial
      | ok t'' => exact ht'.addRow hadd

theorem wpE_apply_built {f : Filter} (hf : f.Builds) (h : t.Built) :
    wpE (f.apply t) (fun t' _ => t'.Built) (fun _ _ => True) c := by
  unfold apply
  cases ha : f.action with
  | retain p =>
    show wpE (_ >>= _) _ _ _
    rw [wpE_bind]
    exact wpE_mono (wpE_retain_built h p f.name) (fun _ _ ht' => ht'.renamed f.name) fun _ _ he => he
  | custom transform =>
    show wpE (_ >>= _) _ _ _
    rw [wpE_bind, wpE_get, wpE_bind, wpE_except]
    cases ht : transform c.bindings t with
    | error e => trivial
    | ok t' => exact (hf transform ha _ _ _ h ht).renamed f.name

end Filter

theorem FlowResult.built_new {b : Bindings} {al : FlowAliases} {r : FlowResult} (h : new b al = .ok r) :
    r.table.Built := by
  obtain ⟨source, sink, barrier, name⟩ := al
  unfold new at h
  obtain ⟨t₁, h₁, h⟩ := exists_of_bind_eq_ok h
  obtain ⟨t₂, h₂, h⟩ := exists_of_bind_eq_ok h
  have ht₂ := ((Table.built_new name).addColumn h₁).addColumn h₂
  cases barrier with
  | none =>
    obtain ⟨t₃, h₃, h⟩ := exists_of_bind_eq_ok h
    cases h₃
    obtain ⟨t₄, h₄, h⟩ := exists_of_bind_eq_ok h
    cases h
    exact ht₂.addColumn h₄
  | some barrier =>
    obtain ⟨t₃, h₃, h⟩ := exists_of_bind_eq_ok h
    obtain ⟨t₄, h₄, h⟩ := exists_of_bind_eq_ok h
    cases h
    exact (ht₂.addColumn h₃).addColumn h₄

namespace Flow
variable {f : Flow} {source sink barrier : Column} {w : World}

/-- The algorithm leaves a built table if it is given one. -/
def Builds (f : Flow) : Prop :=
  ∀ v source sink barrier r w, r.table.Built →
    wpE (f.algorithm v source sink barrier r) (fun r' _ => r'.table.Built) (fun _ _ => True) w

theorem built_of_emits {r r' : FlowResult} {xs : List Finding} (h : r.table.Built) (he : r.Emits xs r') :
    r'.table.Built := by
  induction he with
  | nil => exact h
  | cons hadd _ ih => exact ih (h.addRow hadd)

theorem builds_of_onlyEmits
    (h : ∀ source sink barrier, OnlyEmits (f.algorithm · source sink barrier)) : f.Builds := by
  intro v source sink barrier r w hr
  refine wpE_mono (h source sink barrier v r w) (fun r' _ he => ?_) fun _ _ he => he
  obtain ⟨xs, hemits⟩ := he
  exact built_of_emits hr hemits

theorem builds_reachability (aliases : FlowAliases) (f : Reachability) (a : App) :
    Builds ⟨aliases, f.algorithm a⟩ :=
  builds_of_onlyEmits (f.onlyEmits_algorithm a)

theorem wpE_apply_built (hf : f.Builds) (t₁ t₂ : Table) (t₃ : Option Table) :
    wpE (f.apply t₁ t₂ t₃) (fun t _ => t.Built) (fun _ _ => True) w := by
  have hrest : ∀ source sink barrier : Column, wpE (do
      let r ← FlowResult.new (← World.bindings) f.toFlowAliases
      let r ← (← source.cells).toList.foldlM (f.addFindings source sink barrier) r
      return r.table : QueryM Table) (fun t _ => t.Built) (fun _ _ => True) w := by
    intro source sink barrier
    rw [wpE_bind, wpE_lift, wp_bindings, wpE_bind, wpE_except]
    cases hnew : FlowResult.new w.graph.bindings f.toFlowAliases with
    | error e => trivial
    | ok r =>
      dsimp only
      rw [wpE_bind, wpE_except]
      cases source.cells with
      | error e => trivial
      | ok cells =>
        show wpE (_ >>= _) _ _ _
        rw [wpE_bind]
        refine wpE_foldlM (fun _ (r' : FlowResult) _ => r'.table.Built) (fun _ cell r' w' _ hr' => ?_)
          (FlowResult.built_new hnew)
        unfold addFindings
        cases cell.value? with
        | none => exact hr'
        | some v => exact hf v source sink barrier r' w' hr'
  unfold apply
  rw [wpE_bind, wpE_except]
  cases t₁.onlyColumn with
  | error e => trivial
  | ok source =>
    dsimp only
    rw [wpE_bind, wpE_except]
    cases t₂.onlyColumn with
    | error e => trivial
    | ok sink =>
      cases t₃ with
      | none => exact hrest source sink noBarrier
      | some t =>
        dsimp only
        rw [wpE_bind, wpE_except]
        cases t.onlyColumn with
        | error e => trivial
        | ok barrier => exact hrest source sink barrier

end Flow

/-! ### Calls -/

namespace Query
variable {α β : Type} {P : α → Prop} {P' : β → Prop} {a : App} {q : Query} {w : World}

/-- All tables of the query have been built. -/
structure Built (q : Query) : Prop where
  live : q.tables.Built
  pending : q.pending.Built
  result : ∀ t, q.result = some t → t.Built

theorem built_empty : empty.Built := ⟨TableSet.built_empty, TableSet.built_empty, fun _ h => nomatch h⟩

/-- Given a query of built tables the stage leaves one, whether it fails or not, and what it returns
satisfies `P`. -/
def Gives (P : α → Prop) (m : StageM α) : Prop :=
  ∀ q w, q.Built → wpS m (fun x q' _ => q'.Built ∧ P x) (fun _ q' _ => q'.Built) q w

theorem Gives.bind {m : StageM α} {f : α → StageM β} (h : Gives P m) (hf : ∀ x, P x → Gives P' (f x)) :
    Gives P' (m >>= f) := by
  intro q w hq
  rw [wpS_bind]
  exact wpS_mono (h q w hq) (fun x q' w' hx => hf x hx.2 q' w' hx.1) fun _ _ _ hq' => hq'

theorem Keeps.gives {m : StageM α} (h : Keeps Built m) : Gives (fun _ => True) m := fun q w hq =>
  wpS_mono (h q w hq) (fun _ _ _ hq' => ⟨hq', trivial⟩) fun _ _ _ hq' => hq'

theorem gives_pure {x : α} (h : P x) : Gives P (pure x) := fun _ _ hq => ⟨hq, h⟩

theorem gives_query : Gives Built Stage.query := fun _ _ hq => ⟨hq, hq⟩

theorem gives_except {x : Except Error α} (h : ∀ y, x = .ok y → P y) :
    Gives P (liftM x : StageM α) := by
  intro q w hq
  rw [wpS_except]
  cases hx : x with
  | error e => exact hq
  | ok y => exact ⟨hq, h y hx⟩

theorem gives_ofQueryM {m : QueryM α} (h : ∀ w, wpE m (fun x _ => P x) (fun _ _ => True) w) :
    Gives P (Stage.ofQueryM m) := by
  intro q w hq
  rw [wpS_ofQueryM]
  exact wpE_mono (h w) (fun x _ hx => ⟨hq, hx⟩) fun _ _ _ => hq

theorem gives_mapM {f : String → StageM α} (hf : ∀ x, Gives P (f x)) (o : Option String) :
    Gives (fun _ => True) (o.mapM f) := by
  cases o with
  | none => exact gives_pure trivial
  | some x => exact (hf x).bind fun _ _ => gives_pure trivial

theorem gives_takeTable (name : String) : Gives Table.Built (takeTable name) := by
  intro q w hq
  rw [wpS_takeTable]
  cases ht : q.tables.get? name with
  | none => exact hq
  | some t => exact ⟨⟨hq.live.erase name, hq.pending, hq.result⟩, hq.live name t ht⟩

theorem gives_giveTable {t : Table} (ht : t.Built) : Gives (fun _ => True) (giveTable t) := by
  intro q w hq
  rw [wpS_giveTable]
  cases q.tables.get? t.name with
  | some u => exact hq
  | none => exact ⟨⟨hq.live.insert ht, hq.pending, hq.result⟩, trivial⟩

theorem gives_prepare (a : App) : Gives (fun _ => True) (prepare a) := by
  unfold prepare
  refine gives_query.bind fun q hq => ?_
  split
  · exact gives_pure trivial
  have hjoin (scanned : TableSet) (hscanned : scanned.Built) : Gives (fun _ => True) (do
      Stage.update fun q => { q with pending := .empty }
      let tables ← scanned.merge q.pending
      let tables ← q.tables.merge tables
      Stage.update fun q => { q with tables, prepared := true }) := by
    refine (keeps_update fun q' hq' => ⟨hq'.live, TableSet.built_empty, hq'.result⟩).gives.bind
      fun _ _ => ?_
    refine (gives_except fun _ => hscanned.merge hq.pending).bind fun joined hjoined => ?_
    refine (gives_except fun _ => hq.live.merge hjoined).bind fun tables htables => ?_
    exact (keeps_update fun q' hq' => ⟨htables, hq'.pending, hq'.result⟩).gives
  split
  · exact hjoin .empty TableSet.built_empty
  · exact (gives_ofQueryM (Scan.wpE_run_built a a.batchSize q.actions)).bind hjoin

theorem Built.withSource {q' : Query} (hq : q.Built) (s : Source) (hok : q.withSource s = .ok q') :
    q'.Built := by
  unfold Query.withSource at hok
  split at hok
  · cases hok
  split at hok
  · cases hok
  cases hm : s.mode with
  | data =>
    rw [hm] at hok
    obtain ⟨actions, -, hok⟩ := exists_of_bind_eq_ok hok
    cases hok
    exact ⟨hq.live, hq.pending, hq.result⟩
  | predicate =>
    rw [hm] at hok
    obtain ⟨pending, hadd, hok⟩ := exists_of_bind_eq_ok hok
    cases hok
    exact ⟨hq.live, hq.pending.add (Table.built_ofColumn ..) hadd, hq.result⟩

theorem gives_source (s : Source) : Gives (fun _ => True) (source s) := by
  unfold source
  refine gives_query.bind fun q hq => ?_
  refine (gives_except fun _ => hq.withSource s).bind fun q' hq' => ?_
  exact fun _ _ _ => ⟨hq', trivial⟩

namespace Call

/-- The transform or the algorithm that comes with the call makes built tables of built tables. -/
def Builds : Call → Prop
  | filter f => f.Builds
  | flow f => f.Builds
  | source _ | select _ | handOver => True

theorem gives_run {c : Call} (hc : c.Builds) (a : App) : Gives (fun _ => True) (c.run a) := by
  cases c with
  | source s => exact gives_source s
  | handOver => exact fun _ _ _ => ⟨built_empty, trivial⟩
  | filter f =>
    refine (gives_prepare a).bind fun _ _ => ?_
    refine (gives_takeTable f.name).bind fun t ht => ?_
    have happly := gives_ofQueryM fun w => wpE_resolving.2 (Filter.wpE_apply_built (c := w.graph) hc ht)
    refine happly.bind fun t' ht' => ?_
    exact (gives_giveTable ht').bind fun _ _ => (keeps_ofWorldM _).gives
  | flow f =>
    refine (gives_prepare a).bind fun _ _ => ?_
    refine (keeps_requireTable f.source).gives.bind fun _ _ => ?_
    refine (keeps_requireTable f.sink).gives.bind fun _ _ => ?_
    refine (keeps_forM keeps_requireTable f.barrier).gives.bind fun _ _ => ?_
    refine (gives_takeTable f.source).bind fun source _ => ?_
    refine (gives_takeTable f.sink).bind fun sink _ => ?_
    refine (gives_mapM gives_takeTable f.barrier).bind fun barrier _ => ?_
    refine (gives_ofQueryM fun w => Flow.wpE_apply_built hc source sink barrier).bind fun t ht => ?_
    exact (gives_giveTable (ht.renamed f.name)).bind fun _ _ => (keeps_ofWorldM _).gives
  | select names =>
    refine (gives_prepare a).bind fun _ _ => ?_
    refine gives_query.bind fun q _ => ?_
    refine (gives_except (P := fun _ => True) fun _ _ => trivial).bind fun t _ => ?_
    refine (keeps_update fun q' hq' => ⟨TableSet.built_empty, hq'.pending, hq'.result⟩).gives.bind
      fun _ _ => ?_
    refine (keeps_ofWorldM _).gives.bind fun b _ => ?_
    refine (gives_except fun _ => Table.built_of_project).bind fun result hresult => ?_
    refine (keeps_update fun q' hq' => ⟨hq'.live, hq'.pending, ?_⟩).gives.bind fun _ _ =>
      (keeps_ofWorldM _).gives
    exact fun t ht => Option.some.inj ht ▸ hresult

theorem built_after {c : Call} (hc : c.Builds) (hq : q.Built) : (c.after a (q, w)).1.Built :=
  after_of_wpS (R := fun q' _ => q'.Built)
    (wpS_mono (gives_run hc a q w hq) (fun _ _ _ h => h.1) fun _ _ _ h => h)

end Call

/-- Calls have made the query of an empty one, each in a world of its own, whatever has happened to the
world between them. -/
inductive Made (a : App) : Query → Prop where
  | empty : Made a empty
  | call {q : Query} (h : Made a q) (w : World) {c : Call} (hc : c.Builds) : Made a (c.after a (q, w)).1

theorem Made.built (h : q.Made a) : q.Built := by
  induction h with
  | empty => exact built_empty
  | call _ w hc ih => exact Call.built_after hc ih

end Query

end CodeGraph
