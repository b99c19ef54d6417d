import CodeGraph.Proofs.PairedTables
import CodeGraph.Proofs.Parts
import CodeGraph.Proofs.Procedures

/-!
# Sources that are wrapped again

The sources of a procedure accept a value for any part of it, whether the predicate that they are given
does so already or not. A source comes to what its predicate does when it is asked, be it by a scan
(`Scan.run_congr`) or as a column (`Column.Alike`), so sources whose predicates do the same make the same
tables. Queries that differ in nothing else are `Query.Alike`, and what adds sources to them and prepares
them keeps them so.
-/

namespace CodeGraph

/-- Actions of one name whose predicates do the same. -/
def ScanAction.Alike (x y : ScanAction) : Prop := x.name = y.name ∧ x.accepts.test = y.accepts.test

/-! ### Scans -/

namespace Scan
variable {actions actions' : List ScanAction}

theorem answers_congr (h : List.Forall₂ ScanAction.Alike actions actions') :
    answers actions = answers actions' := by
  funext v
  unfold answers
  induction h with
  | nil => rfl
  | cons hx _ ih => rw [List.mapM_cons, List.mapM_cons, ih, hx.2]

theorem classifyPage_congr (h : List.Forall₂ ScanAction.Alike actions actions') :
    classifyPage actions = classifyPage actions' := by
  have hclassify : classify actions = classify actions' := by
    unfold classify
    rw [answers_congr h]
  unfold classifyPage
  rw [hclassify]

theorem pages_congr (h : List.Forall₂ ScanAction.Alike actions actions') (s : GraphStore) (limit : Nat)
    (columns : List DataColumn) (offset : Nat) :
    pages s limit actions columns offset = pages s limit actions' columns offset := by
  induction hn : s.extent - offset using Nat.strongRecOn generalizing offset columns with
  | ind n ih =>
    rw [pages, pages]
    split
    · rfl
    · next page hpage =>
      refine congrArg _ (funext fun _ => congrArg _ (funext fun _ => ?_))
      split
      · rfl
      · next hne =>
        -- a page that is not empty moves the offset towards the end
        have hlt : offset < s.extent :=
          Nat.lt_of_not_le fun hle => hne (s.ends offset limit page hle hpage)
        have hpos : 0 < page.length := List.length_pos_iff.mpr hne
        rw [classifyPage_congr h]
        exact congrArg _ (funext fun columns => congrArg _ (funext fun _ => ih _ (by omega) columns _ rfl))

theorem run_congr (h : List.Forall₂ ScanAction.Alike actions actions') (a : App) (limit : Nat) :
    run a limit actions = run a limit actions' := by
  have hnew : actions.map (fun x => DataColumn.new x.name true) =
      actions'.map fun x => DataColumn.new x.name true :=
    map_eq_of_forall₂ h fun _ _ hx => congrArg (DataColumn.new · true) hx.1
  unfold run
  rw [pages_congr h, hnew]

end Scan

/-! ### Tables -/

inductive Column.Alike : Column → Column → Prop where
  | refl (c : Column) : Alike c c
  | predicate (name : String) {p q : ValuePredicate} (same : p.test = q.test) :
      Alike (.predicate name p) (.predicate name q)

namespace Column.Alike
variable {c d : Column}

theorem name_cells_contains (h : c.Alike d) :
    c.name = d.name ∧ c.cells = d.cells ∧ c.contains = d.contains := by
  cases h with
  | refl => exact ⟨rfl, rfl, rfl⟩
  | predicate name same =>
    refine ⟨rfl, rfl, funext fun cell => ?_⟩
    unfold Column.contains
    cases cell.value? with
    | none => rfl
    | some v => exact congrFun same v

end Column.Alike

structure Table.Alike (t u : Table) : Prop where
  name : t.name = u.name
  size : t.size = u.size
  columns : List.Forall₂ Column.Alike t.columns u.columns

theorem Table.Alike.refl (t : Table) : t.Alike t := ⟨rfl, rfl, List.forall₂_same.2 fun c _ => .refl c⟩

def TableSet.Alike (s s' : TableSet) : Prop :=
  List.Forall₂ (fun e e' => e.1 = e'.1 ∧ e.2.Alike e'.2) s.tables.entries s'.tables.entries

namespace TableSet.Alike
variable {s s' o o' : TableSet} {t u : Table}

theorem refl (s : TableSet) : s.Alike s := List.forall₂_same.2 fun e _ => ⟨rfl, .refl e.2⟩

theorem aliases_eq (h : s.Alike s') : s.aliases = s'.aliases := map_eq_of_forall₂ h fun _ _ he => he.1

theorem contains_eq (h : s.Alike s') : s.contains = s'.contains := by
  funext name
  rw [Bool.eq_iff_iff]
  exact Dictionary.mem_keys_iff.symm.trans ((iff_of_eq (congrArg (name ∈ ·) h.aliases_eq)).trans
    Dictionary.mem_keys_iff)

theorem insert (h : s.Alike s') (name : String) (ht : t.Alike u) :
    (TableSet.mk (s.tables.insert name t)).Alike ⟨s'.tables.insert name u⟩ := by
  show List.Forall₂ _ (Dictionary.place name t s.tables.entries) (Dictionary.place name u s'.tables.entries)
  unfold TableSet.Alike at h
  generalize s.tables.entries = es, s'.tables.entries = es' at h
  induction h with
  | nil => exact .cons ⟨rfl, ht⟩ .nil
  | @cons e e' es es' he hes ih =>
    unfold Dictionary.place
    rw [he.1]
    split
    · exact .cons ⟨rfl, ht⟩ (.cons he hes)
    · split
      · exact .cons ⟨rfl, ht⟩ hes
      · exact .cons he ih

theorem add (h : s.Alike s') (ht : t.Alike u) : Agree TableSet.Alike (s.add t) (s'.add u) := by
  unfold TableSet.add
  rw [h.contains_eq, ht.name]
  split
  · rfl
  · exact h.insert u.name ht

theorem foldl_insert {d d' : Dictionary Table} (h : TableSet.Alike ⟨d⟩ ⟨d'⟩)
    {es es' : List (String × Table)} (hes : List.Forall₂ (fun e e' => e.1 = e'.1 ∧ e.2.Alike e'.2) es es') :
    TableSet.Alike ⟨es.foldl (fun d (name, t) => d.insert name t) d⟩
      ⟨es'.foldl (fun d (name, t) => d.insert name t) d'⟩ := by
  induction hes generalizing d d' with
  | nil => exact h
  | @cons e e' _ _ he _ ih =>
    refine ih ?_
    dsimp only
    rw [← he.1]
    exact h.insert e.1 he.2

theorem merge (h : s.Alike s') (ho : o.Alike o') : Agree TableSet.Alike (s.merge o) (s'.merge o') := by
  unfold TableSet.merge
  rw [h.contains_eq, ho.aliases_eq]
  split
  · rfl
  · exact h.foldl_insert ho

end TableSet.Alike

/-! ### Queries -/

structure Query.Alike (q q' : Query) : Prop where
  actions : List.Forall₂ ScanAction.Alike q.actions q'.actions
  pending : q.pending.Alike q'.pending
  tables : q.tables.Alike q'.tables
  rest : q' = { q with actions := q'.actions, pending := q'.pending, tables := q'.tables }

namespace Query
variable {q q' : Query}

theorem Alike.withSource (h : q.Alike q') (name : String) (mode : SourceMode) {p p' : ValuePredicate}
    (hp : p.test = p'.test) :
    Agree Query.Alike (q.withSource ⟨name, mode, p⟩) (q'.withSource ⟨name, mode, p'⟩) := by
  have hnames : (q.actions.any fun x => x.name == name) = q'.actions.any fun x => x.name == name :=
    any_eq_of_forall₂ h.actions fun _ _ hx => by rw [hx.1]
  unfold Query.withSource
  rw [show q'.prepared = q.prepared by rw [h.rest], show q'.aliases = q.aliases by rw [h.rest]]
  split
  · rfl
  · split
    · rfl
    · cases mode with
      | data =>
        dsimp only [addAction]
        rw [hnames]
        split
        · rfl
        · refine ⟨List.rel_append h.actions (.cons ⟨rfl, hp⟩ .nil), h.pending, h.tables, ?_⟩
          rw [h.rest]
      | predicate =>
        have hcol : (Table.ofColumn name (.predicate name p)).Alike (.ofColumn name (.predicate name p')) :=
          ⟨rfl, rfl, .cons (.predicate name hp) .nil⟩
        dsimp only
        refine (h.pending.add hcol).bind fun s s' hs => ?_
        refine ⟨h.actions, hs, h.tables, ?_⟩
        rw [h.rest]

def alike : Course (Query × World) (Query × World) where
  Step _ r := r.1.1.Alike r.2.1 ∧ r.1.2 = r.2.2
  trans _ h := h
  stay h := h

variable {p : (Query × World) × (Query × World)}

theorem wpS₂_source_alike (hp : alike.Step p p) (name : String) (mode : SourceMode)
    {accepts accepts' : ValuePredicate} (hs : accepts.test = accepts'.test) :
    wpS₂ alike (source ⟨name, mode, accepts⟩) (source ⟨name, mode, accepts'⟩) (fun _ _ _ => True) p := by
  unfold source
  refine wpS₂_bind (wpS₂_query hp) fun q q' r _ h => ?_
  obtain ⟨rfl, rfl, rfl⟩ := h
  refine wpS₂_bind (wpS₂_except hp (hp.1.withSource name mode hs)) fun x x' r _ h => ?_
  obtain ⟨rfl, hx⟩ := h
  exact wpS₂_mono (wpS₂_put ⟨hx, hp.2⟩) fun _ _ _ _ _ => trivial

theorem wpS₂_ofQueryM_alike (hp : alike.Step p p) {α : Type} (m : QueryM α) :
    wpS₂ alike (Stage.ofQueryM m) (Stage.ofQueryM m) (fun x y _ => x = y) p := by
  obtain ⟨⟨q, w⟩, q', w'⟩ := p
  obtain ⟨hq, hw⟩ := hp
  replace hw : w = w' := hw
  subst hw
  exact ⟨⟨hq, rfl⟩, agree_eq_iff.2 rfl⟩

theorem wpS₂_join_alike (hp : alike.Step p p) {scanned scanned' : TableSet} (hs : scanned.Alike scanned')
    {pending pending' tables tables' : TableSet} (hpend : pending.Alike pending')
    (htab : tables.Alike tables') :
    wpS₂ alike
      (do
        Stage.update fun q => { q with pending := .empty }
        let joined ← scanned.merge pending
        let joined ← tables.merge joined
        Stage.update fun q => { q with tables := joined, prepared := true })
      (do
        Stage.update fun q => { q with pending := .empty }
        let joined ← scanned'.merge pending'
        let joined ← tables'.merge joined
        Stage.update fun q => { q with tables := joined, prepared := true })
      (fun _ _ _ => True) p := by
  have hclear : alike.Step p (({ p.1.1 with pending := .empty }, p.1.2), ({ p.2.1 with pending := .empty }, p.2.2)) :=
    ⟨⟨hp.1.actions, .refl _, hp.1.tables, by rw [hp.1.rest]⟩, hp.2⟩
  refine wpS₂_bind (wpS₂_update hclear) fun _ _ r hr h => ?_
  subst h
  have hp' := alike.stay hr
  refine wpS₂_bind (wpS₂_except hp' (hs.merge hpend)) fun x x' _ _ h => ?_
  obtain ⟨rfl, hx⟩ := h
  refine wpS₂_bind (wpS₂_except hp' (htab.merge hx)) fun y y' _ _ h => ?_
  obtain ⟨rfl, hy⟩ := h
  refine wpS₂_mono (wpS₂_update ⟨⟨hp.1.actions, .refl _, hy, ?_⟩, hp.2⟩) fun _ _ _ _ _ => trivial
  rw [hp.1.rest]

theorem wpS₂_prepare_alike (hp : alike.Step p p) (a : App) :
    wpS₂ alike (prepare a) (prepare a) (fun _ _ _ => True) p := by
  unfold prepare
  refine wpS₂_bind (wpS₂_query hp) fun q q' r _ h => ?_
  obtain ⟨rfl, rfl, rfl⟩ := h
  have hq := hp.1
  have hempty : r.1.1.actions.isEmpty = r.2.1.actions.isEmpty := by
    rw [Bool.eq_iff_iff, List.isEmpty_iff_length_eq_zero, List.isEmpty_iff_length_eq_zero,
      hq.actions.length_eq]
  rw [show r.2.1.prepared = r.1.1.prepared by rw [hq.rest], hempty, Scan.run_congr hq.actions]
  split
  · exact wpS₂_pure hp trivial
  · split
    · exact wpS₂_join_alike hp (.refl _) hq.pending hq.tables
    · refine wpS₂_bind (wpS₂_ofQueryM_alike hp _) fun x x' r' hr' h => ?_
      subst h
      exact wpS₂_join_alike (alike.stay hr') (.refl x) hq.pending hq.tables

end Query

/-! ### Procedures -/

/-- Worlds that differ at most in the sources of the query that is held. -/
inductive World.Alike : World → World → Prop where
  | free {w : World} (nothing : w.slots.query.entry = none) : Alike w w
  | holding (w : World) {q q' : Query} (queries : q.Alike q') : Alike (w.holding q) (w.holding q')

theorem World.Alike.refl (w : World) : w.Alike w := by
  cases hw : w.slots.query.entry with
  | none => exact .free hw
  | some q =>
    have hq : q.Alike q := ⟨List.forall₂_same.2 fun _ _ => ⟨rfl, rfl⟩, .refl _, .refl _, rfl⟩
    have hself : w.holding q = w := by
      unfold World.holding
      rw [← hw]
      rfl
    have h := Alike.holding w hq
    rwa [hself] at h

namespace Procedure

def alike : Course World World where
  Step _ r := r.1.Alike r.2
  trans _ h := h
  stay h := h

variable {α : Type} {p : World × World}

theorem wpE₂_of_run {m m' : QueryM α} {x y : Except Error α} {w w' : World}
    (hm : m.run.run p.1 = (x, w)) (hm' : m'.run.run p.2 = (y, w')) (hw : w.Alike w') (hxy : x = y) :
    wpE₂ alike m m' (fun x y _ => x = y) p := by
  unfold wpE₂ wp₂ wp
  rw [hm, hm']
  exact ⟨hw, agree_eq_iff.2 hxy⟩

theorem wpE₂_aliasOr_alike (hp : alike.Step p p) (name : Option String) :
    wpE₂ alike (aliasOr name) (aliasOr name) (fun x y _ => x = y) p := by
  cases name with
  | some name => exact wpE₂_pure hp rfl
  | none =>
    obtain ⟨w, w'⟩ := p
    cases hp with
    | free h => exact wpE₂_of_run rfl rfl (.free h) rfl
    | holding w h => exact wpE₂_of_run rfl rfl (.holding { w with madeUp := w.madeUp + 1 } h) rfl

theorem run_current_of_free {w : World} (h : w.slots.query.entry = none) :
    current.run.run w = (.error (.slotNotSet w.slots.query.name), w) := by
  obtain ⟨graph, requests, profile, ⟨⟨name, entry⟩, source⟩, notes, madeUp⟩ := w
  cases h
  rfl

theorem run_stage_of_free {w : World} (h : w.slots.query.entry = none) (m : StageM α) :
    (stage m).run.run w = (.error (.slotNotSet w.slots.query.name), w) := by
  unfold stage
  rw [ExceptT.run_bind, StateT.run_bind, run_current_of_free h]
  rfl

theorem wpE₂_current_alike (hp : alike.Step p p) :
    wpE₂ alike current current (fun _ _ _ => True) p := by
  obtain ⟨w, w'⟩ := p
  cases hp with
  | free h =>
    exact wpE₂_mono (wpE₂_of_run (run_current_of_free h) (run_current_of_free h) (.free h) rfl)
      fun _ _ _ _ _ => trivial
  | holding w h => exact ⟨.holding w h, trivial⟩

theorem exists_run_claimSource (w : World) : ∃ x, claimSource.run.run w = (x, w) ∧
    ∀ q, claimSource.run.run (w.holding q) = (x, w.holding q) := by
  obtain ⟨graph, requests, profile, ⟨query, ⟨name, entry⟩⟩, notes, madeUp⟩ := w
  cases entry <;> exact ⟨_, rfl, fun _ => rfl⟩

theorem wpE₂_claimSource_alike (hp : alike.Step p p) :
    wpE₂ alike claimSource claimSource (fun x y _ => x = y) p := by
  obtain ⟨w, w'⟩ := p
  cases hp with
  | free hw =>
    obtain ⟨x, hx, -⟩ := exists_run_claimSource w
    exact wpE₂_of_run hx hx (.free hw) rfl
  | holding w hq =>
    obtain ⟨x, -, hx⟩ := exists_run_claimSource w
    exact wpE₂_of_run (hx _) (hx _) (.holding w hq) rfl

theorem wpE₂_stage_alike {m m' : StageM α} (hm : Stage.Slotless m) (hm' : Stage.Slotless m')
    (h : ∀ p, Query.alike.Step p p → wpS₂ Query.alike m m' (fun x y _ => x = y) p)
    (hp : alike.Step p p) : wpE₂ alike (stage m) (stage m') (fun x y _ => x = y) p := by
  obtain ⟨w, w'⟩ := p
  cases hp with
  | free hw => exact wpE₂_of_run (run_stage_of_free hw m) (run_stage_of_free hw m') (.free hw) rfl
  | @holding w q q' hq =>
    obtain ⟨x, q₁, w₁, hrun, hstage, -⟩ := run_stage hm q w
    obtain ⟨y, q₁', w₁', hrun', hstage', -⟩ := run_stage hm' q' w
    have hboth := h ((q, w), (q', w)) ⟨hq, rfl⟩
    unfold wpS₂ wp at hboth
    rw [show (m.run.run q).run w = ((x, q₁), w₁) from hrun,
      show (m'.run.run q').run w = ((y, q₁'), w₁') from hrun'] at hboth
    obtain ⟨⟨hq₁, hw₁⟩, hxy⟩ := hboth
    replace hw₁ : w₁ = w₁' := hw₁
    subst hw₁
    exact wpE₂_of_run hstage hstage' (.holding w₁ hq₁) (agree_eq_iff.1 hxy)

theorem slotless_source (s : Source) : Stage.Slotless (Query.source s) :=
  Query.Call.slotless_rest (c := .source s) trivial

/-- Adding a source that accepts parts does the same whether its predicate does so already or not. -/
theorem wpE₂_addSource (hp : alike.Step p p) (mode : SourceMode) (accepts : ValuePredicate)
    (name : Option String) :
    wpE₂ alike (addSource mode accepts.contains name) (addSource mode accepts name)
      (fun x y _ => x = y) p := by
  unfold addSource
  refine wpE₂_bind (wpE₂_aliasOr_alike hp name) fun n n' q hq h => ?_
  subst h
  refine wpE₂_bind (wpE₂_current_alike (alike.stay hq)) fun _ _ q hq _ => ?_
  refine wpE₂_bind (wpE₂_claimSource_alike (alike.stay hq)) fun _ _ q hq _ => ?_
  refine wpE₂_bind (wpE₂_stage_alike (slotless_source _) (slotless_source _) (fun r hr => ?_)
    (alike.stay hq)) fun _ _ q hq _ => wpE₂_pure (alike.stay hq) rfl
  exact wpS₂_mono (Query.wpS₂_source_alike hr n mode accepts.test_contains_contains)
    fun _ _ _ _ _ => rfl

/-- A source of a procedure: its mode, the predicate that it is given, and its alias if it has one. -/
abbrev Given := SourceMode × ValuePredicate × Option String

def Given.wrapped : Given → Given := fun (mode, accepts, name) => (mode, accepts.contains, name)

def addAll (sources : List Given) : QueryM (List String) :=
  sources.mapM fun (mode, accepts, name) => addSource mode accepts name

theorem wpE₂_addAll (hp : alike.Step p p) (sources : List Given) :
    wpE₂ alike (addAll (sources.map Given.wrapped)) (addAll sources) (fun x y _ => x = y) p := by
  unfold addAll
  induction sources generalizing p with
  | nil => exact wpE₂_pure hp rfl
  | cons s sources ih =>
    obtain ⟨mode, accepts, name⟩ := s
    rw [List.map_cons, List.mapM_cons, List.mapM_cons]
    refine wpE₂_bind (wpE₂_addSource hp mode accepts name) fun n n' q hq h => ?_
    subst h
    refine wpE₂_bind (ih (alike.stay hq)) fun ns ns' q hq h => ?_
    subst h
    exact wpE₂_pure (alike.stay hq) rfl

def gather (a : App) (sources : List Given) : QueryM (List String) := do
  let names ← addAll sources
  stage (Query.prepare a)
  return names

theorem wpE₂_gather (hp : alike.Step p p) (a : App) (sources : List Given) :
    wpE₂ alike (gather a (sources.map Given.wrapped)) (gather a sources) (fun x y _ => x = y) p := by
  unfold gather
  refine wpE₂_bind (wpE₂_addAll hp sources) fun names names' q hq h => ?_
  subst h
  have hprepare := Query.slotless_prepare a
  refine wpE₂_bind (wpE₂_stage_alike hprepare hprepare (fun r hr => ?_) (alike.stay hq))
    fun _ _ q hq _ => wpE₂_pure (alike.stay hq) rfl
  exact wpS₂_mono (Query.wpS₂_prepare_alike hr a) fun _ _ _ _ _ => rfl

end Procedure

/-- The laws of asking for parts, whatever the context and whether the predicates ask for nodes or not.
A part of a part is a part, to accept one of two is to accept the one or the other, and what is accepted
itself or has a child with an accepted part has an accepted part. So a source whose predicate is wrapped
again selects the same: a scan finds the same, a column of predicates contains the same, and a procedure
whose sources are given wrapped predicates comes to the same aliases or error and the same live tables. -/
theorem ValuePredicate.contains_laws (p q : ValuePredicate) :
    (contains (contains p)).test = (contains p).test ∧
    (∀ c v, (contains (p.or q)).acceptedIn c v =
      ((contains p).acceptedIn c v || (contains q).acceptedIn c v)) ∧
    (∀ c v, p.acceptedIn c v = true → (contains p).acceptedIn c v = true) ∧
    (∀ c v, ∀ u ∈ v.children, (contains p).acceptedIn c u = true → (contains p).acceptedIn c v = true) ∧
    (∀ a limit (actions : List ScanAction),
      Scan.run a limit (actions.map fun x => ⟨x.name, contains (contains x.accepts)⟩) =
        Scan.run a limit (actions.map fun x => ⟨x.name, contains x.accepts⟩)) ∧
    (∀ name, (Column.predicate name (contains (contains p))).contains =
      (Column.predicate name (contains p)).contains) ∧
    ∀ a sources w,
      ((Procedure.gather a (sources.map Procedure.Given.wrapped)).run.run w).1 =
        ((Procedure.gather a sources).run.run w).1 ∧
      ((Procedure.gather a (sources.map Procedure.Given.wrapped)).run.run w).2.Alike
        ((Procedure.gather a sources).run.run w).2 := by
  refine ⟨p.test_contains_contains, fun c v => acceptedIn_contains_or, fun c v => acceptedIn_contains_self,
    fun c v u hu => acceptedIn_contains_of_part (Tree.mem_preorder_of_mem_children hu),
    fun a limit actions => Scan.run_congr ?_ a limit, fun name => ?_, fun a sources w => ?_⟩
  · rw [List.forall₂_map_left_iff, List.forall₂_map_right_iff]
    exact List.forall₂_same.2 fun x _ => ⟨rfl, x.accepts.test_contains_contains⟩
  · exact (Column.Alike.predicate name p.test_contains_contains).name_cells_contains.2.2
  · have h := Procedure.wpE₂_gather (p := (w, w)) (.refl w) a sources
    exact ⟨agree_eq_iff.1 h.2, h.1⟩

end CodeGraph
