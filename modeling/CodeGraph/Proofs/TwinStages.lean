import CodeGraph.Proofs.ReachabilityQuery
import CodeGraph.Proofs.Transforms

/-!
# The stages of two runs

A query of sources, filters, reachability flows and selections (`Query.Step`) that is run twice on one
ground stays the same but for the objects in its tables (`Query.Paired`), whether its steps succeed or
fail, and they do so alike (`Ground.wpS₂_step`).
-/

namespace CodeGraph

namespace Query

inductive Step where
  | source (s : Source)
  | keep (name : String) (p : FilterPredicate)
  | reach (aliases : FlowAliases) (f : Reachability)
  | select (names : List String)

namespace Step

def call (a : App) : Step → Call
  | source s => .source s
  | keep name p => .filter ⟨name, .retain p⟩
  | reach aliases f => .flow ⟨aliases, f.algorithm a⟩
  | select names => .select names

def run (a : App) (s : Step) : StageM Unit := (s.call a).run a

def Blind : Step → Prop
  | keep _ p => p.Blind
  | source _ | reach _ _ | select _ => True

end Step

/-- The same query in two runs: only the objects in its tables may differ. -/
structure Paired (V : Value → Value → Prop) (q q' : Query) : Prop where
  same : q' = { q with tables := q'.tables, result := q'.result }
  tables : q.tables.Paired V q'.tables
  result : Option.Rel (Table.Paired V) q.result q'.result
  recorded : q.prepared = false → q.Recorded
  pending : ∀ name t, q.pending.get? name = some t →
    ∃ accepts, t = .ofColumn name (.predicate name accepts)

namespace Paired
variable {V V' : Value → Value → Prop} {q q' : Query}

theorem mono (h : q.Paired V q') (hV : ∀ v v', V v v' → V' v v') : q.Paired V' q' := by
  refine ⟨h.same, h.tables.mono hV, ?_, h.recorded, h.pending⟩
  rcases eq_none_or_of_rel h.result with ⟨hx, hy⟩ | ⟨t, t', hx, hy, ht⟩
  · rw [hx, hy]
    exact .none
  · rw [hx, hy]
    exact .some (ht.mono hV)

theorem empty : Query.empty.Paired V .empty :=
  ⟨rfl, TableSet.Paired.empty, .none, fun _ => recorded_empty, fun _ _ h => nomatch h⟩

theorem prepared_eq (h : q.Paired V q') : q'.prepared = q.prepared := by rw [h.same]

theorem eq_of_unprepared (h : q.Paired V q') (hp : q.prepared = false) : q' = q := by
  have hr := h.recorded hp
  have htables : q'.tables = q.tables := by
    refine TableSet.ext_get? fun name => ?_
    rcases eq_none_or_of_rel (h.tables name) with ⟨hx, hy⟩ | ⟨t, _, hx, -⟩
    · rw [hx, hy]
    · rw [hr.tables, TableSet.get?_empty] at hx
      cases hx
  have hresult : q'.result = q.result := by
    rcases eq_none_or_of_rel h.result with ⟨hx, hy⟩ | ⟨t, _, hx, -⟩
    · rw [hx, hy]
    · rw [hr.result] at hx
      cases hx
  rw [h.same, htables, hresult]

theorem withTables {s s' : TableSet} (h : q.Paired V q') (hs : s.Paired V s')
    (hp : q.prepared = true) :
    Paired V { q with tables := s } { q' with tables := s' } := by
  refine ⟨?_, hs, h.result, fun hf => ?_, h.pending⟩
  · rw [h.same]
  · exact absurd (hp.symm.trans hf) Bool.true_eq_false.mp

theorem withResult {t t' : Table} (h : q.Paired V q') (ht : t.Paired V t') (hp : q.prepared = true) :
    Paired V { q with result := some t } { q' with result := some t' } := by
  refine ⟨?_, h.tables, .some ht, fun hf => ?_, h.pending⟩
  · rw [h.same]
  · exact absurd (hp.symm.trans hf) Bool.true_eq_false.mp

theorem record (h : q.Paired V q) (hp : q.prepared = false) {s : Source} (hnew : s.name ∉ q.aliases) :
    (q.record s).Paired V (q.record s) := by
  have hr := (h.recorded hp).record hnew
  refine ⟨rfl, ?_, ?_, fun _ => hr, fun name t ht => ?_⟩
  · rw [hr.tables]
    exact TableSet.Paired.empty
  · rw [hr.result]
    exact .none
  · unfold Query.record at ht
    cases hm : s.mode with
    | data =>
      rw [hm] at ht
      exact h.pending name t ht
    | predicate =>
      rw [hm] at ht
      have hget := (TableSet.get?_insert q.pending
        (.ofColumn s.name (.predicate s.name s.accepts)) name).symm.trans ht
      split at hget
      · next heq =>
        cases hget
        exact ⟨s.accepts, by rw [heq]; rfl⟩
      · exact h.pending name t hget

end Paired

end Query

namespace Ground
variable {g : Ground} {p r : (Query × World) × (Query × World)} {a a' : App} {name : String}
  {t t' : Table}

/-- The values that are twins in two queries' worlds. -/
abbrev TwinsIn (g : Ground) (p : (Query × World) × (Query × World)) : Value → Value → Prop :=
  g.Twins (p.1.2.graph, p.2.2.graph)

def stages (g : Ground) : Course (Query × World) (Query × World) where
  Step p r := g.course.onGraph.Step (p.1.2, p.2.2) (r.1.2, r.2.2) ∧ r.1.1.Paired (g.TwinsIn r) r.2.1
  trans h h' := ⟨g.course.onGraph.trans h.1 h'.1, h'.2⟩
  stay h := ⟨g.course.onGraph.stay h.1, h.2⟩

theorem stages_step (hp : g.stages.Step p p) {w : World × World}
    (hw : g.course.onGraph.Step (p.1.2, p.2.2) w) :
    g.stages.Step p ((p.1.1, w.1), (p.2.1, w.2)) :=
  ⟨hw, hp.2.mono fun _ _ h => h.step hw⟩

/-- Runs of a prepared query. -/
def Prepared (p : (Query × World) × (Query × World)) : Prop := p.1.1.prepared = true

/-! ### Preparing -/

theorem paired_of_lists {c c' : Context} {d d' : DataColumn} {rs : List Reading}
    (hread : ∀ r ∈ rs, g.catalog.read g.language r.id = some r)
    (hkept : g.lasting → ∀ r ∈ rs, c.registry.contains r.id = true ∧ c'.registry.contains r.id = true)
    (hn : d.name = d'.name) (hd : d.Lists c.bindings rs) (hd' : d'.Lists c'.bindings rs) :
    (Column.data d).Paired (g.Twins (c, c')) (.data d') := by
  refine .data hn (forall₂_of_both hd.forall₂_cells hd'.forall₂_cells fun x y r hr hx hy => ?_) fun id => ?_
  · obtain ⟨v, rfl, hv⟩ := hx
    obtain ⟨v', rfl, hv'⟩ := hy
    exact .value ⟨r.id, r, hread r hr, hv, hv', fun hl => hkept hl r hr⟩
  · obtain ⟨i, hi, hid⟩ := hd.index
    obtain ⟨i', hi', hid'⟩ := hd'.index
    rw [hi, hi', Option.map_some, Option.map_some, Option.some.injEq, Bool.eq_iff_iff,
      Std.HashMap.contains_iff_mem, Std.HashMap.contains_iff_mem, hid, hid']

theorem read_of_collects {vs : List Vertex} (hvs : ∀ v ∈ vs, g.catalog.find v.id = some v)
    {x : ScanAction} : ∀ r ∈ x.collects g.language vs, g.catalog.read g.language r.id = some r := by
  intro r hr
  obtain ⟨v, hv, hread⟩ := List.mem_filterMap.1 (List.mem_of_mem_filter hr)
  rw [Reading.id_of_read hread, Catalog.read_of_find (hvs v hv)]
  exact hread

theorem paired_of_tabulates {c c' : Context} {actions : List ScanAction} {vs : List Vertex}
    {s s' : TableSet} (hvs : ∀ v ∈ vs, g.catalog.find v.id = some v)
    (hkept : g.lasting → ∀ x ∈ actions, ∀ r ∈ x.collects g.language vs,
      c.registry.contains r.id = true ∧ c'.registry.contains r.id = true)
    (h : Scan.Tabulates c.bindings g.language vs actions s)
    (h' : Scan.Tabulates c'.bindings g.language vs actions s') : s.Paired (g.Twins (c, c')) s' := by
  intro name
  by_cases hx : ∃ x ∈ actions, x.name = name
  · obtain ⟨x, hx, rfl⟩ := hx
    obtain ⟨d, hget, hname, hd⟩ := h.column x hx
    obtain ⟨d', hget', hname', hd'⟩ := h'.column x hx
    rw [hget, hget']
    exact .some (.ofColumn x.name (paired_of_lists (read_of_collects hvs) (fun hl => hkept hl x hx)
      (hname.trans hname'.symm) hd hd'))
  · have hnone : ∀ {b : Bindings} {s : TableSet}, Scan.Tabulates b g.language vs actions s →
        s.get? name = none := fun h => Option.eq_none_iff_forall_ne_some.2 fun t ht =>
      hx (h.action name t ht)
    rw [hnone h, hnone h']
    exact .none

theorem wpS₂_prepare (ha : g.Serves a a') (hp : g.stages.Step p p) :
    wpS₂ g.stages (Query.prepare a) (Query.prepare a') (fun _ _ r => Prepared r) p := by
  obtain ⟨⟨q, w⟩, q', w'⟩ := p
  obtain ⟨hw, hq⟩ := hp
  cases hprep : q.prepared with
  | true =>
    have hkeep : ∀ {a : App} {q : Query} {w : World}, q.prepared = true →
        wpS (Query.prepare a) (fun _ q₁ w₁ => q₁ = q ∧ w₁ = w) NeverS q w := fun h => by
      rw [Query.wpS_prepare_of_prepared h]
      exact ⟨rfl, rfl⟩
    refine wpS₂_of_never (hkeep hprep) (hkeep (hq.prepared_eq.trans hprep)) ?_
    rintro _ q₁ w₁ _ q₁' w₁' ⟨rfl, rfl⟩ ⟨rfl, rfl⟩
    exact ⟨⟨hw, hq⟩, hprep⟩
  | false =>
    -- until now the query is the same in both runs, and they differ only in what the scans build
    have heq : q' = q := hq.eq_of_unprepared hprep
    subst heq
    have hr := hq.recorded hprep
    have hready := hw.1.ready
    have hready' := hw.2.ready
    refine wpS₂_of_never
      (hr.wpS_prepare hprep (Query.wpE_scan_kept hr.nodup_actions hready.faithful ha.find))
      (hr.wpS_prepare hprep (Query.wpE_scan_kept hr.nodup_actions hready'.faithful
        fun v hv => ha.find v (ha.listing ▸ hv))) fun _ q₁ w₁ _ q₁' w₁' h h' => ?_
    obtain ⟨scanned, tables, ⟨hg, hf, htab, hkept⟩, rfl, -, hget, -⟩ := h
    obtain ⟨scanned', tables', ⟨hg', hf', htab', hkept'⟩, rfl, -, hget', -⟩ := h'
    rw [hready.language] at htab hkept
    rw [hready'.language, ← ha.listing] at htab' hkept'
    have hscan := paired_of_tabulates ha.find (fun hl x hx r hr =>
      ⟨hkept (hready.lasting hl) x hx r hr, hkept' (hready'.lasting hl) x hx r hr⟩) htab htab'
    refine ⟨⟨⟨hready.moves hg hf, hready'.moves hg' hf'⟩, rfl, fun name => ?_, ?_,
      (fun hf => nomatch hf), fun _ _ h => nomatch h⟩, rfl⟩
    swap
    · show Option.Rel _ q'.result q'.result
      rw [hr.result]
      exact .none
    show Option.Rel _ (tables.get? name) (tables'.get? name)
    rw [hget, hget']
    cases hpend : q'.pending.get? name with
    | none => exact hscan name
    | some t =>
      obtain ⟨accepts, rfl⟩ := hq.pending name t hpend
      exact .some (.ofColumn name (.predicate name accepts))

/-! ### Tables -/

theorem wpS₂_requireTable (hp : g.stages.Step p p) (name : String) :
    wpS₂ g.stages (Query.requireTable name) (Query.requireTable name) (fun _ _ r => r = p) p := by
  unfold Query.requireTable
  refine wpS₂_bind (wpS₂_query hp) fun q q' r _ h => ?_
  obtain ⟨rfl, rfl, rfl⟩ := h
  refine wpS₂_bind (wpS₂_except hp (hp.2.tables.table name)) fun t t' r' _ h => ?_
  obtain ⟨rfl, -⟩ := h
  exact wpS₂_pure hp rfl

theorem wpS₂_takeTable (hp : g.stages.Step p p) (hprep : Prepared p) (name : String) :
    wpS₂ g.stages (Query.takeTable name) (Query.takeTable name)
      (fun t t' r => Prepared r ∧ t.Paired (g.TwinsIn r) t') p := by
  unfold Query.takeTable
  refine wpS₂_bind (wpS₂_query hp) fun q q' r _ h => ?_
  obtain ⟨rfl, rfl, rfl⟩ := h
  refine wpS₂_bind (wpS₂_except hp (hp.2.tables.remove name)) fun x x' r' _ h => ?_
  obtain ⟨rfl, ht, hs⟩ := h
  have hstep : g.stages.Step r' (({ r'.1.1 with tables := x.2 }, r'.1.2),
      ({ r'.2.1 with tables := x'.2 }, r'.2.2)) := ⟨hp.1, hp.2.withTables hs hprep⟩
  refine wpS₂_bind (wpS₂_put hstep) fun _ _ r'' hr h => ?_
  subst h
  exact wpS₂_pure (g.stages.stay hr) ⟨hprep, ht⟩

theorem wpS₂_giveTable (hp : g.stages.Step p p) (hprep : Prepared p)
    (ht : t.Paired (g.TwinsIn p) t') :
    wpS₂ g.stages (Query.giveTable t) (Query.giveTable t') (fun _ _ _ => True) p := by
  unfold Query.giveTable
  refine wpS₂_bind (wpS₂_query hp) fun q q' r _ h => ?_
  obtain ⟨rfl, rfl, rfl⟩ := h
  refine wpS₂_bind (wpS₂_except hp (hp.2.tables.add ht)) fun x x' r' _ h => ?_
  obtain ⟨rfl, hs⟩ := h
  exact wpS₂_mono (wpS₂_put ⟨hp.1, hp.2.withTables hs hprep⟩) fun _ _ _ _ _ => trivial

theorem wpS₂_count (hp : g.stages.Step p p) (f : Profile → Profile) :
    wpS₂ g.stages (Stage.ofWorldM (World.count f)) (Stage.ofWorldM (World.count f))
      (fun _ _ _ => True) p :=
  ⟨⟨hp.1, hp.2⟩, trivial⟩

theorem wpS₂_bindings (hp : g.stages.Step p p) :
    wpS₂ g.stages (Stage.ofWorldM World.bindings) (Stage.ofWorldM World.bindings)
      (fun b b' r => r = p ∧ b = p.1.2.graph.bindings ∧ b' = p.2.2.graph.bindings) p :=
  ⟨hp, rfl, rfl, rfl⟩

theorem wpS₂_finish (hp : g.stages.Step p p) (hprep : Prepared p) {m m' : QueryM Table}
    (hm : wpE₂ g.course.onGraph m m' (fun t t' q => t.Paired (g.Twins (graphs q)) t') (p.1.2, p.2.2))
    {h : Table → Table} (hh : ∀ {V : Value → Value → Prop} {t t' : Table}, t.Paired V t' →
      (h t).Paired V (h t')) (f : Profile → Profile) :
    wpS₂ g.stages
      (do
        let t ← Stage.ofQueryM m
        Query.giveTable (h t)
        Stage.ofWorldM (World.count f))
      (do
        let t ← Stage.ofQueryM m'
        Query.giveTable (h t)
        Stage.ofWorldM (World.count f)) (fun _ _ _ => True) p := by
  refine wpS₂_bind ?_ fun t t' r hr (ht : Prepared r ∧ t.Paired (g.TwinsIn r) t') => ?_
  · exact ⟨stages_step hp hm.1, hm.2.mono fun t t' ht => ⟨hprep, ht⟩⟩
  · refine wpS₂_bind (wpS₂_giveTable (g.stages.stay hr) ht.1 (hh ht.2)) fun _ _ r' hr' _ => ?_
    exact wpS₂_count (g.stages.stay hr') f

/-! ### Steps -/

theorem wpS₂_source (hp : g.stages.Step p p) (s : Source) :
    wpS₂ g.stages (Query.source s) (Query.source s) (fun _ _ _ => True) p := by
  obtain ⟨⟨q, w⟩, q', w'⟩ := p
  have hrecord : Agree (fun x x' => x.Paired (g.TwinsIn ((q, w), (q', w'))) x') (q.withSource s)
      (q'.withSource s) := by
    cases hprep : q.prepared with
    | true =>
      have hrej : ∀ {q : Query}, q.prepared = true → q.withSource s = .error (.invalidStage "from") :=
        fun h => by unfold Query.withSource; rw [if_pos h]
      rw [hrej hprep, hrej (hp.2.prepared_eq.trans hprep)]
      rfl
    | false =>
      have heq : q' = q := hp.2.eq_of_unprepared hprep
      subst heq
      rw [(hp.2.recorded hprep).withSource_eq hprep]
      split
      · rfl
      · next hnew => exact hp.2.record hprep hnew
  unfold Query.source
  refine wpS₂_bind (wpS₂_query hp) fun q₁ q₁' r _ h => ?_
  obtain ⟨rfl, rfl, rfl⟩ := h
  refine wpS₂_bind (wpS₂_except hp hrecord) fun x x' r _ h => ?_
  obtain ⟨rfl, hx⟩ := h
  exact wpS₂_mono (wpS₂_put ⟨hp.1, hx⟩) fun _ _ _ _ _ => trivial

theorem wpS₂_filter (ha : g.Serves a a') (hp : g.stages.Step p p) {accepts : FilterPredicate}
    (hb : accepts.Blind ∨ g.lasting) (name : String) :
    wpS₂ g.stages (Query.filter a ⟨name, .retain accepts⟩) (Query.filter a' ⟨name, .retain accepts⟩)
      (fun _ _ _ => True) p := by
  unfold Query.filter
  refine wpS₂_bind (wpS₂_prepare ha hp) fun _ _ r hr hprep => ?_
  refine wpS₂_bind (wpS₂_takeTable (g.stages.stay hr) hprep name) fun t t' r' hr' ht => ?_
  have hp' := g.stages.stay hr'
  exact wpS₂_finish hp' ht.1 (wpE₂_resolving (wpE₂_retain hb (g.course.stay hp'.1) ht.2))
    (fun h => h) _

theorem wpS₂_forM (hp : g.stages.Step p p) (o : Option String) :
    wpS₂ g.stages (o.forM Query.requireTable) (o.forM Query.requireTable) (fun _ _ r => r = p) p := by
  cases o with
  | none => exact wpS₂_pure hp rfl
  | some name => exact wpS₂_requireTable hp name

theorem wpS₂_mapM (hp : g.stages.Step p p) (hprep : Prepared p) (o : Option String) :
    wpS₂ g.stages (o.mapM Query.takeTable) (o.mapM Query.takeTable)
      (fun t t' r => Prepared r ∧ Option.Rel (Table.Paired (g.TwinsIn r)) t t') p := by
  cases o with
  | none => exact wpS₂_pure hp ⟨hprep, .none⟩
  | some name =>
    refine wpS₂_bind (wpS₂_takeTable hp hprep name) fun t t' r hr ht => ?_
    exact wpS₂_pure (g.stages.stay hr) ⟨ht.1, .some ht.2⟩

theorem wpS₂_flow (ha : g.Serves a a') (hp : g.stages.Step p p) (al : FlowAliases)
    (f : Reachability) :
    wpS₂ g.stages (Query.flow a ⟨al, f.algorithm a⟩) (Query.flow a' ⟨al, f.algorithm a'⟩)
      (fun _ _ _ => True) p := by
  unfold Query.flow
  refine wpS₂_bind (wpS₂_prepare ha hp) fun _ _ r hr hprep => ?_
  have hp := g.stages.stay hr
  refine wpS₂_bind (wpS₂_requireTable hp al.source) fun _ _ _ _ h => ?_
  subst h
  refine wpS₂_bind (wpS₂_requireTable hp al.sink) fun _ _ _ _ h => ?_
  subst h
  refine wpS₂_bind (wpS₂_forM hp al.barrier) fun _ _ _ _ h => ?_
  subst h
  refine wpS₂_bind (wpS₂_takeTable hp hprep al.source) fun t₁ t₁' r₁ hr₁ h₁ => ?_
  refine wpS₂_bind (wpS₂_takeTable (g.stages.stay hr₁) h₁.1 al.sink) fun t₂ t₂' r₂ hr₂ h₂ => ?_
  refine wpS₂_bind (wpS₂_mapM (g.stages.stay hr₂) h₂.1 al.barrier) fun t₃ t₃' r₃ hr₃ h₃ => ?_
  have hp₃ := g.stages.stay hr₃
  refine wpS₂_finish hp₃ h₃.1 (wpE₂_apply ha hp₃.1 al f ?_ ?_ h₃.2) (fun h => h.renamed al.name) _
  · exact h₁.2.mono fun _ _ h => h.step (g.stages.trans hr₂ hr₃).1
  · exact h₂.2.mono fun _ _ h => h.step hr₃.1

theorem wpS₂_select (ha : g.Serves a a') (hp : g.stages.Step p p) (names : List String) :
    wpS₂ g.stages (Query.select a names) (Query.select a' names) (fun _ _ _ => True) p := by
  unfold Query.select
  refine wpS₂_bind (wpS₂_prepare ha hp) fun _ _ r hr hprep => ?_
  have hp := g.stages.stay hr
  refine wpS₂_bind (wpS₂_query hp) fun q q' _ _ h => ?_
  obtain ⟨rfl, rfl, rfl⟩ := h
  refine wpS₂_bind (wpS₂_except hp hp.2.tables.onlyTable) fun t t' r' _ h => ?_
  obtain ⟨rfl, ht⟩ := h
  refine wpS₂_bind (wpS₂_update ⟨hp.1, hp.2.withTables TableSet.Paired.empty hprep⟩)
    fun _ _ r hr h => ?_
  subst h
  have hp' := g.stages.stay hr
  refine wpS₂_bind (wpS₂_bindings hp') fun b b' _ _ h => ?_
  obtain ⟨rfl, rfl, rfl⟩ := h
  refine wpS₂_bind (wpS₂_except hp' (ht.project (g.seenAlike (r'.1.2.graph, r'.2.2.graph)) names))
    fun u u' _ _ h => ?_
  obtain ⟨rfl, hu⟩ := h
  refine wpS₂_bind (wpS₂_update ⟨hp'.1, hp'.2.withResult hu hprep⟩) fun _ _ r₃ hr₃ _ => ?_
  exact wpS₂_count (g.stages.stay hr₃) _

/-- A step does the same in two runs, if its filter asks for no node or nothing is forgotten. -/
theorem wpS₂_step (ha : g.Serves a a') (hp : g.stages.Step p p) {s : Query.Step}
    (hs : s.Blind ∨ g.lasting) :
    wpS₂ g.stages (s.run a) (s.run a') (fun _ _ _ => True) p := by
  cases s with
  | source s => exact wpS₂_source hp s
  | keep name accepts => exact wpS₂_filter ha hp hs name
  | reach al f => exact wpS₂_flow ha hp al f
  | select names => exact wpS₂_select ha hp names

end Ground

/-! ### Beginnings -/

/-- Nothing is registered, and no value has been bound that has not been built. -/
structure Context.Blank (l : Language) (c : Context) : Prop where
  language : c.language = l
  unbuilt : c.bindings.Unbuilt
  room : c.registry.capacity ≠ some 0
  nil : c.registry.entries = []

theorem Context.blank_new (l : Language) (capacity : Option Nat) : (Context.new l capacity).Blank l where
  language := rfl
  unbuilt _ _ := Std.HashMap.getElem?_empty
  room := by
    show capacity.filter (· ≠ 0) ≠ some 0
    simp [Option.filter_eq_some_iff]
  nil := rfl

namespace Ground
variable {o o' : DatabaseOptions} {d : GraphDump} {s : InMemoryStore} {a a' : App} {l : Language}
  {w w' : World} {lasting : Prop}

def inMemory (d : GraphDump) (l : Language) (lasting : Prop) : Ground :=
  ⟨.ofListing d.vertices, l, lasting⟩

theorem serves_inMemory (hd : InMemoryStore.Holds d s) (ha : App.new o s.toStore = .ok a)
    (ha' : App.new o' s.toStore = .ok a') : (inMemory d l lasting).Serves a a' where
  vertex id := by
    rw [App.store_eq ha]
    exact congrArg Except.ok (hd.vertex?_eq id)
  vertex' id := by
    rw [App.store_eq ha']
    exact congrArg Except.ok (hd.vertex?_eq id)
  outEdges id label := by rw [App.store_eq ha, App.store_eq ha']
  listing := by rw [hd.served_eq ha, hd.served_eq ha']
  find v hv := Catalog.find_ofListing hd.nodup_ids (by rwa [hd.served_eq ha] at hv)

theorem Ready.of_blank {g : Ground} {c : Context} (hc : c.Blank g.language) (hl : g.language.Fresh)
    (hroom : g.lasting → c.registry.capacity = none) : g.Ready c :=
  ⟨Context.faithful_of_nil (by rw [hc.language]; exact hl) hc.unbuilt hc.room hc.nil, hc.language, hroom⟩

theorem step_empty {g : Ground} (h : g.Ready w.graph) (h' : g.Ready w'.graph) :
    g.stages.Step ((.empty, w), (.empty, w')) ((.empty, w), (.empty, w')) :=
  ⟨g.step_self h h', Query.Paired.empty⟩

end Ground

end CodeGraph
