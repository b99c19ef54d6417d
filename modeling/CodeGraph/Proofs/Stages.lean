import CodeGraph.Proofs.Classification

/-!
# What the stages of a query do

Each step of a stage by what it needs and leaves: tables are taken, given and required by alias.
Before it is prepared a query is in good order (`Query.Recorded`) when its live tables are empty,
there is no result, and its aliases are different from each other and are those of its actions and
its pending tables. Such a query is prepared without failure, and then exactly its aliases are live.
-/

namespace CodeGraph

namespace Query
variable {a : App} {q : Query} {w : World} {t : Table} {name : String} {E : Error → Query → World → Prop}

theorem wpS_takeTable {Q : Table → Query → World → Prop} :
    wpS (takeTable name) Q E q w ↔
      match q.tables.get? name with
      | some t => Q t { q with tables := ⟨q.tables.tables.erase name⟩ } w
      | none => E (.notFound "table" name) q w := by
  unfold takeTable
  rw [wpS_bind, wpS_query, wpS_bind, wpS_except]
  cases h : q.tables.get? name with
  | some t => rw [TableSet.remove_of_some h]; exact Iff.rfl
  | none => rw [TableSet.remove_of_none h]

theorem wpS_giveTable {Q : Unit → Query → World → Prop} :
    wpS (giveTable t) Q E q w ↔
      match q.tables.get? t.name with
      | some _ => E (.duplicateName "table" t.name) q w
      | none => Q () { q with tables := ⟨q.tables.tables.insert t.name t⟩ } w := by
  unfold giveTable
  rw [wpS_bind, wpS_query, wpS_bind, wpS_except, TableSet.add_eq]
  cases h : q.tables.get? t.name <;> exact Iff.rfl

theorem wpS_requireTable {Q : Unit → Query → World → Prop} :
    wpS (requireTable name) Q E q w ↔
      match q.tables.get? name with
      | some _ => Q () q w
      | none => E (.notFound "table" name) q w := by
  unfold requireTable
  rw [wpS_bind, wpS_query, wpS_bind, wpS_except]
  cases h : q.tables.get? name with
  | some t => rw [TableSet.table_eq_ok_iff.2 h]; exact Iff.rfl
  | none => rw [TableSet.table_of_none h]

theorem wpS_prepare_of_prepared (h : q.prepared = true) {Q : Unit → Query → World → Prop} :
    wpS (prepare a) Q E q w ↔ Q () q w := by
  unfold prepare
  rw [wpS_bind, wpS_query, if_pos h]
  exact Iff.rfl

theorem wpS_source {s : Source} {Q : Unit → Query → World → Prop} :
    wpS (source s) Q E q w ↔
      match q.withSource s with
      | .ok q' => Q () q' w
      | .error e => E e q w := by
  unfold source
  rw [wpS_bind, wpS_query, wpS_bind, wpS_except]
  cases q.withSource s <;> exact Iff.rfl

/-! ### Preparation -/

/-- What is in order before a query is prepared. -/
structure Recorded (q : Query) : Prop where
  tables : q.tables = .empty
  result : q.result = none
  nodup : q.aliases.Nodup
  aliases : q.aliases.Perm (q.actions.map (·.name) ++ q.pending.aliases)
  pending : q.pending.Named

theorem recorded_empty : empty.Recorded := ⟨rfl, rfl, .nil, .nil, TableSet.named_empty⟩

/-- The tables that a scan for the actions of a query finds, if there are any actions. -/
def scan (a : App) (q : Query) : QueryM TableSet :=
  if q.actions.isEmpty then pure .empty else Scan.run a a.batchSize q.actions

theorem wpE_scan_kept {k : Catalog} (hn : (q.actions.map (·.name)).Nodup) (hw : w.graph.Faithful k)
    (hserved : ∀ v ∈ Scan.served a.store a.batchSize 0, k.find v.id = some v) :
    wpE (q.scan a) (fun tables w' => w.graph.Grows w'.graph ∧ w'.graph.Faithful k ∧
      Scan.Tabulates w'.graph.bindings w.graph.language (Scan.served a.store a.batchSize 0) q.actions
        tables ∧
      (w.graph.registry.capacity = none → ∀ x ∈ q.actions,
        ∀ r ∈ x.collects w.graph.language (Scan.served a.store a.batchSize 0),
          w'.graph.registry.contains r.id = true)) Never w := by
  unfold scan
  split
  · next hnil =>
    rw [List.isEmpty_iff.1 hnil]
    exact ⟨.refl _, hw, ⟨fun x hx => absurd hx List.not_mem_nil, fun name t ht => nomatch ht⟩,
      fun _ x hx => absurd hx List.not_mem_nil⟩
  · exact Scan.wpE_run_kept hw hserved hn

theorem wpS_prepare (h : q.prepared = false) {Q : Unit → Query → World → Prop} :
    wpS (prepare a) Q E q w ↔
      wpE (q.scan a) (fun scanned w' =>
        match scanned.merge q.pending >>= q.tables.merge with
        | .ok tables => Q () { q with pending := .empty, tables, prepared := true } w'
        | .error e => E e { q with pending := .empty } w') (fun e w' => E e q w') w := by
  have hnot : ¬ q.prepared = true := by rw [h]; exact Bool.false_ne_true
  have hjoin : ∀ (scanned : TableSet) (w' : World), wpS (do
      Stage.update fun q => { q with pending := .empty }
      let tables ← scanned.merge q.pending
      let tables ← q.tables.merge tables
      Stage.update fun q => { q with tables, prepared := true }) Q E q w' ↔
      match scanned.merge q.pending >>= q.tables.merge with
      | .ok tables => Q () { q with pending := .empty, tables, prepared := true } w'
      | .error e => E e { q with pending := .empty } w' := by
    intro scanned w'
    rw [wpS_bind, wpS_update, wpS_bind, wpS_except]
    cases scanned.merge q.pending with
    | error e => exact Iff.rfl
    | ok tables =>
      show wpS _ _ _ _ _ ↔ match q.tables.merge tables with | .ok _ => _ | .error _ => _
      rw [wpS_bind, wpS_except]
      cases q.tables.merge tables <;> exact Iff.rfl
  unfold prepare scan
  rw [wpS_bind, wpS_query, if_neg hnot]
  by_cases hnil : q.actions.isEmpty
  · rw [if_pos hnil, if_pos hnil, wpE_pure]
    exact hjoin .empty w
  · rw [if_neg hnil, if_neg hnil, wpS_bind, wpS_ofQueryM]
    simp only [hjoin]

namespace Recorded

theorem nodup_actions (h : q.Recorded) : (q.actions.map (·.name)).Nodup :=
  (List.nodup_append.1 (h.aliases.nodup_iff.1 h.nodup)).1

theorem disjoint (h : q.Recorded) (hx : name ∈ q.actions.map (·.name)) : name ∉ q.pending.aliases :=
  fun hp => (List.nodup_append.1 (h.aliases.nodup_iff.1 h.nodup)).2.2 name hx name hp rfl

theorem mem_aliases (h : q.Recorded) :
    name ∈ q.aliases ↔ name ∈ q.actions.map (·.name) ∨ name ∈ q.pending.aliases := by
  rw [h.aliases.mem_iff, List.mem_append]

theorem wpE_scan (h : q.Recorded) :
    wpE (q.scan a) (fun tables _ => tables.Named ∧
      ∀ x, (∃ t, tables.get? x = some t) ↔ x ∈ q.actions.map (·.name)) Never w := by
  unfold scan
  split
  · next hnil =>
    rw [List.isEmpty_iff.1 hnil]
    exact ⟨TableSet.named_empty, fun x => by simp [TableSet.get?_empty]⟩
  · exact Scan.wpE_run_names h.nodup_actions

theorem join (h : q.Recorded) {scanned : TableSet} (hn : scanned.Named)
    (hs : ∀ x, (∃ t, scanned.get? x = some t) ↔ x ∈ q.actions.map (·.name)) :
    ∃ tables, scanned.merge q.pending >>= q.tables.merge = .ok tables ∧ tables.Named ∧
      (∀ x, tables.get? x = (q.pending.get? x).or (scanned.get? x)) ∧
      ∀ x, (∃ t, tables.get? x = some t) ↔ x ∈ q.aliases := by
  have hdisjoint : ∀ x t, q.pending.get? x = some t → scanned.get? x = none := by
    intro x t ht
    cases hx : scanned.get? x with
    | none => rfl
    | some u => exact absurd (TableSet.mem_aliases_iff.2 ⟨t, ht⟩) (h.disjoint ((hs x).1 ⟨u, hx⟩))
  obtain ⟨joined, hjoined, hget⟩ := TableSet.merge_of_disjoint hdisjoint
  have hfree : ∀ x t, joined.get? x = some t → q.tables.get? x = none := fun x _ _ => by
    rw [h.tables]
    exact TableSet.get?_empty x
  obtain ⟨tables, htables, hlive⟩ := TableSet.merge_of_disjoint hfree
  have hall : ∀ x, tables.get? x = (q.pending.get? x).or (scanned.get? x) := by
    intro x
    rw [hlive, hget, h.tables, TableSet.get?_empty, Option.or_none]
  refine ⟨tables, ?_, fun x t ht => ?_, hall, fun x => ?_⟩
  · rw [hjoined]
    exact htables
  · rw [hall, Option.or_eq_some_iff] at ht
    rcases ht with ht | ⟨-, ht⟩
    · exact h.pending x t ht
    · exact hn x t ht
  · rw [h.mem_aliases, ← hs, TableSet.mem_aliases_iff, hall]
    cases q.pending.get? x <;> simp

/-- A query that is in order is prepared without failure, and then exactly its aliases are live. -/
theorem wpS_prepare (h : q.Recorded) (hp : q.prepared = false) {P : TableSet → World → Prop}
    (hscan : wpE (q.scan a) P Never w) :
    wpS (prepare a) (fun _ q' w' => ∃ scanned tables, P scanned w' ∧
      q' = { q with pending := .empty, tables, prepared := true } ∧ tables.Named ∧
      (∀ x, tables.get? x = (q.pending.get? x).or (scanned.get? x)) ∧
      ∀ x, (∃ t, tables.get? x = some t) ↔ x ∈ q.aliases) NeverS q w := by
  rw [Query.wpS_prepare hp]
  refine wpE_mono (wpE_and hscan h.wpE_scan) (fun scanned w' hs => ?_) fun _ _ h => h
  obtain ⟨hP, hn, hnames⟩ := hs
  obtain ⟨tables, hjoin, htables⟩ := h.join hn hnames
  rw [hjoin]
  exact ⟨scanned, tables, hP, rfl, htables⟩

end Recorded

end Query

end CodeGraph
