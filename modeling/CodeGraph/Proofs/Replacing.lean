import CodeGraph.Proofs.TwinStages

/-!
# Stages that replace tables

A filter with a predicate and a reachability flow are of one kind (`Query.Transform`): they take the
tables of some aliases, make one table of them and give it back under an alias, which may be one of
those taken. On a prepared query such a stage succeeds if the tables are live and different, the alias is
free when they have been taken, and a table can be made of them (`Query.Transform.wpS_run`).
-/

namespace CodeGraph

def Flow.reads (f : Flow) : List String := [f.source, f.sink] ++ f.barrier.toList

namespace Query
variable {a : App} {q q' : Query} {w : World} {x y : String} {names : List String}

/-! ### Success -/

theorem wpE_never_iff {α : Type} {m : QueryM α} {Q : α → World → Prop} :
    wpE m Q Never w ↔ ∃ t w', m.run.run w = (.ok t, w') ∧ Q t w' :=
  ⟨exists_of_wpE, fun ⟨_, _, hrun, hQ⟩ => (wpE_of_run hrun).2 hQ⟩

theorem run_eq_ok_iff {m : StageM Unit} {w' : World} :
    (q.run m).run w = ((.ok (), q'), w') ↔
      wpS m (fun _ q₁ w₁ => q₁ = q' ∧ w₁ = w') NeverS q w := by
  show (m.run.run q).run w = _ ↔ _
  unfold wpS wp
  rcases (m.run.run q).run w with ⟨⟨r, q₁⟩, w₁⟩
  cases r with
  | error e => exact iff_of_false (fun h => nomatch h) id
  | ok _ =>
    constructor
    · intro h
      cases h
      exact ⟨rfl, rfl⟩
    · rintro ⟨rfl, rfl⟩
      rfl

/-! ### Tables that are taken -/

def tableAt (q : Query) (x : String) : Table := (q.tables.get? x).getD (.new x)

def dropAll (q : Query) (names : List String) : Query := names.foldl drop q

theorem dropAll_eq : q.dropAll names = { q with tables := (q.dropAll names).tables } := by
  induction names generalizing q with
  | nil => rfl
  | cons name names ih => exact ih (q := q.drop name)

theorem get?_dropAll :
    (q.dropAll names).tables.get? x = if x ∈ names then none else q.tables.get? x := by
  induction names generalizing q with
  | nil => exact (if_neg List.not_mem_nil).symm
  | cons name names ih =>
    refine (ih (q := q.drop name)).trans ?_
    rw [get?_drop]
    by_cases hx : x = name <;> by_cases hn : x ∈ names <;> simp [hx, hn]

theorem contains_drop :
    (q.drop y).tables.contains x = true ↔ x ≠ y ∧ q.tables.contains x = true := by
  rw [TableSet.contains_iff, TableSet.contains_iff, get?_drop]
  by_cases hx : x = y <;> simp [hx]

theorem tableAt_drop (h : x ≠ y) : (q.drop y).tableAt x = q.tableAt x := by
  unfold tableAt
  rw [get?_drop, if_neg h]

theorem wpS_requireTable_bind {α : Type} {m : Unit → StageM α} {Q : α → Query → World → Prop} :
    wpS (requireTable x >>= m) Q NeverS q w ↔
      q.tables.contains x = true ∧ wpS (m ()) Q NeverS q w := by
  rw [wpS_bind, wpS_requireTable, TableSet.contains_iff]
  cases q.tables.get? x <;> simp [NeverS]

theorem wpS_takeTable_bind {α : Type} {m : Table → StageM α} {Q : α → Query → World → Prop} :
    wpS (takeTable x >>= m) Q NeverS q w ↔
      q.tables.contains x = true ∧ wpS (m (q.tableAt x)) Q NeverS (q.drop x) w := by
  rw [wpS_bind, wpS_takeTable, TableSet.contains_iff]
  unfold tableAt
  cases q.tables.get? x <;> simp [NeverS, drop]

/-! ### Stages that make one table -/

theorem wpS_give_made {m : QueryM Table} {name : String} {p : Profile → Profile}
    {Q : Unit → Query → World → Prop} :
    wpS (do
      let t ← Stage.ofQueryM m
      giveTable (t.renamed name)
      Stage.ofWorldM (World.count p)) Q NeverS q w ↔
    q.tables.contains name = false ∧ wpE m (fun t w' =>
      Q () { q with tables := ⟨q.tables.tables.insert name (t.renamed name)⟩ }
        { w' with profile := p w'.profile }) Never w := by
  have hgive : ∀ (t : Table) (w' : World), wpS (do
      giveTable (t.renamed name)
      Stage.ofWorldM (World.count p)) Q NeverS q w' ↔ q.tables.contains name = false ∧
      Q () { q with tables := ⟨q.tables.tables.insert name (t.renamed name)⟩ }
        { w' with profile := p w'.profile } := by
    intro t w'
    have hname : (t.renamed name).name = name := rfl
    rw [wpS_bind, wpS_giveTable, TableSet.contains_eq_false_iff, hname]
    cases q.tables.get? name with
    | none => exact (and_iff_right rfl).symm
    | some u => simp [NeverS]
  rw [wpS_bind, wpS_ofQueryM]
  simp only [hgive]
  unfold wpE wp
  cases (m.run.run w).1 with
  | ok t => exact Iff.rfl
  | error e => exact (and_iff_right_of_imp fun h => h.elim).symm

theorem wpS_flow (hp : q.prepared = true) (f : Flow) {Q : Unit → Query → World → Prop} :
    wpS (flow a f) Q NeverS q w ↔
      (∀ x ∈ f.reads, q.tables.contains x = true) ∧ f.reads.Nodup ∧
        wpS (do
          let t ← Stage.ofQueryM
            (f.apply (q.tableAt f.source) (q.tableAt f.sink) (f.barrier.map q.tableAt))
          giveTable (t.renamed f.name)
          Stage.ofWorldM (World.count fun p => { p with flow := p.flow + 1 })) Q NeverS
          (q.dropAll f.reads) w := by
  obtain ⟨⟨source, sink, barrier, name⟩, algorithm⟩ := f
  unfold flow
  rw [wpS_bind, wpS_prepare_of_prepared hp, wpS_requireTable_bind, wpS_requireTable_bind]
  cases barrier with
  | none =>
    show _ ∧ _ ∧ wpS (takeTable source >>= _) Q NeverS q w ↔ _
    rw [wpS_takeTable_bind, wpS_takeTable_bind, contains_drop]
    by_cases hk : sink = source
    · simp [Flow.reads, hk]
    have hlive : (∀ x ∈ [source, sink], q.tables.contains x = true) ↔
        q.tables.contains source = true ∧ q.tables.contains sink = true := by simp
    have hn : [source, sink].Nodup := by simp [Ne.symm hk]
    rw [tableAt_drop hk]
    show _ ↔ (∀ x ∈ [source, sink], _) ∧ [source, sink].Nodup ∧
      wpS _ Q NeverS (q.dropAll [source, sink]) w
    rw [hlive, and_iff_right hn]
    show _ ∧ _ ∧ _ ∧ _ ∧ wpS _ Q NeverS (q.dropAll [source, sink]) w ↔ _
    tauto
  | some b =>
    show _ ∧ _ ∧ wpS (requireTable b >>= _) Q NeverS q w ↔ _
    rw [wpS_requireTable_bind, wpS_takeTable_bind, wpS_takeTable_bind, contains_drop]
    by_cases hk : sink = source
    · simp [Flow.reads, hk]
    rw [tableAt_drop hk]
    show _ ∧ _ ∧ _ ∧ _ ∧ _ ∧ wpS ((takeTable b >>= fun t => pure (some t)) >>= _) _ _ _ _ ↔ _
    rw [bind_assoc, wpS_takeTable_bind, contains_drop, contains_drop]
    by_cases hb : b = sink ∨ b = source
    · rcases hb with rfl | rfl <;> simp [Flow.reads]
    obtain ⟨hbk, hbs⟩ := not_or.1 hb
    have hlive : (∀ x ∈ [source, sink, b], q.tables.contains x = true) ↔ q.tables.contains source = true ∧
        q.tables.contains sink = true ∧ q.tables.contains b = true := by simp
    have hn : [source, sink, b].Nodup := by simp [Ne.symm hk, Ne.symm hbk, Ne.symm hbs]
    rw [tableAt_drop hbk, tableAt_drop hbs]
    show _ ↔ (∀ x ∈ [source, sink, b], _) ∧ [source, sink, b].Nodup ∧
      wpS _ Q NeverS (q.dropAll [source, sink, b]) w
    rw [hlive, and_iff_right hn]
    show _ ∧ _ ∧ _ ∧ _ ∧ _ ∧ _ ∧ wpS _ Q NeverS (q.dropAll [source, sink, b]) w ↔ _
    tauto

/-- A filter with a predicate, or a reachability flow. -/
inductive Transform where
  | keep (name : String) (p : FilterPredicate)
  | reach (aliases : FlowAliases) (f : Reachability)

namespace Transform
variable {s : Transform} {t : Table} {tables tables' : String → Table} {Q : Unit → Query → World → Prop}

def step : Transform → Step
  | keep name p => .keep name p
  | reach aliases f => .reach aliases f

def reads : Transform → List String
  | keep name _ => [name]
  | reach al _ => [al.source, al.sink] ++ al.barrier.toList

def makes : Transform → String
  | keep name _ => name
  | reach al _ => al.name

def aliases (s : Transform) : List String := s.makes :: s.reads

def make (a : App) (tables : String → Table) : Transform → QueryM Table
  | keep name p => World.resolving (Filter.apply ⟨name, .retain p⟩ (tables name))
  | reach al f => Flow.apply ⟨al, f.algorithm a⟩ (tables al.source) (tables al.sink) (al.barrier.map tables)

def counted : Transform → Profile → Profile
  | keep .., p => { p with filter := p.filter + 1 }
  | reach .., p => { p with flow := p.flow + 1 }

def finish (a : App) (tables : String → Table) (s : Transform) : StageM Unit := do
  let t ← Stage.ofQueryM (s.make a tables)
  giveTable (t.renamed s.makes)
  Stage.ofWorldM (World.count s.counted)

/-- The query with the table that the stage has made in place of those that it has taken. -/
def given (s : Transform) (q : Query) (t : Table) : Query :=
  let r := q.dropAll s.reads
  { r with tables := ⟨r.tables.tables.insert s.makes (t.renamed s.makes)⟩ }

theorem given_eq : s.given q t = { q with tables := (s.given q t).tables } := by
  unfold given
  rw [dropAll_eq]

theorem get?_given : (s.given q t).tables.get? x =
    if x = s.makes then some (t.renamed s.makes)
    else if x ∈ s.reads then none else q.tables.get? x := by
  rw [← get?_dropAll]
  exact TableSet.get?_insert _ (t.renamed s.makes) x

theorem prepared_given : (s.given q t).prepared = q.prepared := by rw [given_eq]

theorem get?_given_of_not_mem (hx : x ∉ s.aliases) :
    (s.given q t).tables.get? x = q.tables.get? x := by
  obtain ⟨hm, hr⟩ := not_or.1 (mt List.mem_cons.2 hx)
  rw [get?_given, if_neg hm, if_neg hr]

theorem given_paired {V : Value → Value → Prop} {t t' : Table} (hq : q.tables.Paired V q'.tables)
    (ht : t.Paired V t') : (s.given q t).tables.Paired V (s.given q' t').tables := by
  intro x
  rw [get?_given, get?_given]
  split
  · exact .some (ht.renamed s.makes)
  · split
    · exact .none
    · exact hq x

theorem given_given (s s' : Transform) {t t' : Table} :
    s'.given (s.given q t) t' = { q with tables := (s'.given (s.given q t) t').tables } := by
  obtain ⟨tables, h⟩ : ∃ tables, s.given q t = { q with tables } := ⟨_, given_eq⟩
  rw [h]
  exact given_eq

theorem given_comm {s s' : Transform} {t t' : Table} (h : s.aliases.Disjoint s'.aliases) :
    s.given (s'.given q t') t = s'.given (s.given q t) t' := by
  have htables : (s.given (s'.given q t') t).tables = (s'.given (s.given q t) t').tables := by
    refine TableSet.ext_get? fun x => ?_
    by_cases hx : x ∈ s.aliases
    · rw [get?_given_of_not_mem (s := s') (h hx), get?_given (s := s),
        get?_given_of_not_mem (s := s') (h hx), ← get?_given (s := s)]
    · rw [get?_given_of_not_mem (s := s) hx, get?_given (s := s'), get?_given (s := s'),
        get?_given_of_not_mem (s := s) hx]
  rw [given_given s' s, htables, ← given_given s s']

/-- The tables that the stage reads are live and different, and the alias that it makes will be free. -/
structure Fits (s : Transform) (q : Query) : Prop where
  live : ∀ x ∈ s.reads, q.tables.contains x = true
  nodup : s.reads.Nodup
  free : (q.dropAll s.reads).tables.contains s.makes = false

theorem wpS_finish : wpS (s.finish a tables) Q NeverS q w ↔
    q.tables.contains s.makes = false ∧ wpE (s.make a tables) (fun t w' =>
      Q () { q with tables := ⟨q.tables.tables.insert s.makes (t.renamed s.makes)⟩ }
        { w' with profile := s.counted w'.profile }) Never w :=
  wpS_give_made

theorem wpS_finish_keep {name : String} {p : FilterPredicate} :
    wpS (do
      let t ← Stage.ofQueryM (World.resolving (Filter.apply ⟨name, .retain p⟩ t))
      giveTable t
      Stage.ofWorldM (World.count fun p => { p with filter := p.filter + 1 })) Q NeverS q w ↔
    wpS ((keep name p).finish a fun _ => t) Q NeverS q w := by
  unfold finish
  rw [wpS_bind, wpS_ofQueryM, wpS_bind, wpS_ofQueryM]
  show wpE (World.resolving (Filter.apply _ _)) _ _ w ↔ wpE (World.resolving (Filter.apply _ _)) _ _ w
  rw [wpE_resolving, wpE_resolving]
  unfold Filter.apply
  rw [wpE_bind, wpE_bind]
  refine iff_of_eq (congrArg (wpE (Filter.retain p name t) · _ w.graph) (funext₂ fun u c => ?_))
  show wpS _ Q NeverS q { w with graph := c } = wpS _ Q NeverS q { w with graph := c }
  rfl

theorem wpS_step (hp : q.prepared = true) : wpS (s.step.run a) Q NeverS q w ↔
    (∀ x ∈ s.reads, q.tables.contains x = true) ∧ s.reads.Nodup ∧
      wpS (s.finish a q.tableAt) Q NeverS (q.dropAll s.reads) w := by
  cases s with
  | keep name p =>
    show wpS (Query.filter a ⟨name, .retain p⟩) Q NeverS q w ↔ _
    unfold Query.filter
    rw [wpS_bind, wpS_prepare_of_prepared hp, wpS_takeTable_bind, wpS_finish_keep (a := a)]
    show _ ∧ wpS ((keep name p).finish a q.tableAt) Q NeverS (q.drop name) w ↔ _
    simp [reads, dropAll]
  | reach al f => exact wpS_flow hp ⟨al, f.algorithm a⟩

theorem wpS_run (hp : q.prepared = true) : wpS (s.step.run a) Q NeverS q w ↔
    s.Fits q ∧ wpE (s.make a q.tableAt)
      (fun t w' => Q () (s.given q t) { w' with profile := s.counted w'.profile }) Never w := by
  rw [wpS_step hp, wpS_finish]
  constructor
  · rintro ⟨hl, hn, hf, hm⟩
    exact ⟨⟨hl, hn, hf⟩, hm⟩
  · rintro ⟨⟨hl, hn, hf⟩, hm⟩
    exact ⟨hl, hn, hf, hm⟩

theorem Fits.congr (h : s.Fits q) (hq : ∀ x ∈ s.aliases, q'.tables.get? x = q.tables.get? x) :
    s.Fits q' := by
  have hlive : ∀ x ∈ s.reads, q'.tables.contains x = q.tables.contains x := fun x hx =>
    congrArg Option.isSome (hq x (List.mem_cons_of_mem _ hx))
  refine ⟨fun x hx => (hlive x hx).trans (h.live x hx), h.nodup, ?_⟩
  have hfree := h.free
  rw [TableSet.contains_eq_false_iff, get?_dropAll] at hfree ⊢
  rw [hq _ (List.mem_cons_self ..)]
  exact hfree

/-- What a stage makes depends on the tables that it reads. -/
theorem make_congr (hq : ∀ x ∈ s.aliases, q'.tables.get? x = q.tables.get? x) :
    s.make a q'.tableAt = s.make a q.tableAt := by
  have h : ∀ x ∈ s.reads, q'.tableAt x = q.tableAt x := fun x hx => by
    unfold tableAt
    rw [hq x (List.mem_cons_of_mem _ hx)]
  cases s with
  | keep name p =>
    show World.resolving (Filter.apply _ _) = World.resolving (Filter.apply _ _)
    rw [h name (List.mem_singleton_self name)]
  | reach al f =>
    show Flow.apply _ _ _ _ = Flow.apply _ _ _ _
    rw [h al.source (by simp [reads]), h al.sink (by simp [reads]),
      Option.map_congr fun x hx => h x (by simp [reads, hx])]

/-! ### Two stages -/

/-- Two stages with no alias in common succeed one after the other if each fits the query as it is and
makes a table of its tables, one in the world that it finds and the other in the world that the first
leaves. -/
theorem run_both_iff {A B : Transform} {q₂ : Query} {w₂ : World} (hp : q.prepared = true)
    (hAB : A.aliases.Disjoint B.aliases) :
    (q.run (do A.step.run a; B.step.run a)).run w = ((.ok (), q₂), w₂) ↔
      A.Fits q ∧ B.Fits q ∧ ∃ t w₁ t' w₁', (A.make a q.tableAt).run.run w = (.ok t, w₁) ∧
        (B.make a q.tableAt).run.run { w₁ with profile := A.counted w₁.profile } = (.ok t', w₁') ∧
        q₂ = B.given (A.given q t) t' ∧ w₂ = { w₁' with profile := B.counted w₁'.profile } := by
  have hother : ∀ x ∈ B.aliases, ∀ t, (A.given q t).tables.get? x = q.tables.get? x := fun x hx t =>
    get?_given_of_not_mem fun hx' => hAB hx' hx
  rw [run_eq_ok_iff, wpS_bind, wpS_run hp, wpE_never_iff]
  constructor
  · rintro ⟨hA, t, w₁, hrun, hB⟩
    rw [wpS_run (prepared_given.trans hp), make_congr (hother · · t), wpE_never_iff] at hB
    obtain ⟨hB, t', w₁', hrun', rfl, rfl⟩ := hB
    exact ⟨hA, hB.congr fun x hx => (hother x hx t).symm, t, w₁, t', w₁', hrun, hrun', rfl, rfl⟩
  · rintro ⟨hA, hB, t, w₁, t', w₁', hrun, hrun', rfl, rfl⟩
    refine ⟨hA, t, w₁, hrun, ?_⟩
    rw [wpS_run (prepared_given.trans hp), make_congr (hother · · t), wpE_never_iff]
    exact ⟨hB.congr (hother · · t), t', w₁', hrun', rfl, rfl⟩

end Transform

end Query

end CodeGraph
