import CodeGraph.Proofs.Scan
import CodeGraph.Proofs.Store
import CodeGraph.Proofs.TableSet

/-!
# The tables of a scan

A store that cuts a listing into pages serves the listing from the front up to the first page that
it rejects, if there is one (`GraphStore.Cuts.served_eq_take`). The tables of a scan have one column
each, under the alias of an action, and the column lists what the action collects of the vertices
served (`Scan.run_classifies`). What an action collects of a listing is a matter of the language, the
listing and the action alone.
-/

namespace CodeGraph

theorem GraphStore.Cuts.served_eq_take {s : GraphStore} {listing : List Vertex}
    (h : s.Cuts listing) {limit : Nat} (hl : 0 < limit) (offset : Nat) :
    ∃ n, Scan.served s limit offset = (listing.drop offset).take n ∧
      (offset + n < listing.length → ∃ e, s.vertices (offset + n) limit = .error e) := by
  induction hn : s.extent - offset using Nat.strongRecOn generalizing offset with
  | ind n ih =>
    cases hp : s.vertices offset limit with
    | error e => exact ⟨0, Scan.served_of_error hp, fun _ => ⟨e, hp⟩⟩
    | ok page =>
      rw [Scan.served_of_ok hp]
      by_cases hnil : page = []
      · subst hnil
        exact ⟨0, rfl, fun hlt => absurd hp (h.proceeds offset limit hl hlt)⟩
      · have hlt : offset < s.extent :=
          Nat.lt_of_not_le fun hle => hnil (s.ends offset limit page hle hp)
        have hpos : 0 < page.length := List.length_pos_iff.mpr hnil
        obtain ⟨m, hm, hrej⟩ := ih _ (by omega) (offset + page.length) rfl
        refine ⟨page.length + m, ?_, fun hlt => ?_⟩
        · rw [if_neg hnil, hm, List.take_add, List.drop_drop,
            ← List.prefix_iff_eq_take.1 (h.page offset limit page hl hp).1]
        · rw [← Nat.add_assoc] at hlt ⊢
          exact hrej hlt

def ScanAction.collects (x : ScanAction) (l : Language) (vs : List Vertex) : List Reading :=
  (vs.filterMap l.read).filter (·.satisfies x.accepts)

theorem nodup_reads {l : Language} {vs : List Vertex} (h : (vs.map (·.id)).Nodup) :
    ((vs.filterMap l.read).map Reading.id).Nodup := by
  induction vs with
  | nil => exact List.nodup_nil
  | cons v vs ih =>
    rw [List.map_cons, List.nodup_cons] at h
    rw [List.filterMap_cons]
    cases hr : l.read v with
    | none => exact ih h.2
    | some r =>
      refine List.nodup_cons.2 ⟨fun hm => h.1 ?_, ih h.2⟩
      obtain ⟨r', hr', hid⟩ := List.mem_map.1 hm
      obtain ⟨u, hu, hru⟩ := List.mem_filterMap.1 hr'
      rw [← Reading.id_of_read hr, ← hid, Reading.id_of_read hru]
      exact List.mem_map_of_mem hu

theorem ScanAction.nodup_collects {x : ScanAction} {l : Language} {vs : List Vertex}
    (h : (vs.map (·.id)).Nodup) : ((x.collects l vs).map Reading.id).Nodup :=
  (nodup_reads h).sublist (List.filter_sublist.map _)

namespace Scan
variable {actions : List ScanAction} {l : Language} {vs : List Vertex} {b : Bindings}

/-- There is one table for each action: its only column lists what the action collects. -/
structure Tabulates (b : Bindings) (l : Language) (vs : List Vertex) (actions : List ScanAction)
    (tables : TableSet) : Prop where
  column : ∀ x ∈ actions, ∃ col : DataColumn,
    tables.get? x.name = some (.ofColumn x.name (.data col)) ∧ col.name = x.name ∧
      col.Lists b (x.collects l vs)
  action : ∀ name t, tables.get? name = some t → ∃ x ∈ actions, x.name = name

theorem get?_tablesOf {columns : List DataColumn} (hn : (columns.map (·.name)).Nodup) :
    ∃ tables, tablesOf columns = .ok tables ∧ ∀ a t, tables.get? a = some t ↔
      ∃ col ∈ columns, col.name = a ∧ t = .ofColumn a (.data col) := by
  have hnames : ((columns.map fun c => Table.ofColumn c.name (.data c)).map (·.name)).Nodup := by
    rw [List.map_map]
    exact hn
  obtain ⟨tables, hrun, hget⟩ := TableSet.foldlM_add (s := .empty) hnames fun _ _ => rfl
  rw [List.foldlM_map] at hrun
  refine ⟨tables, hrun, fun a t => (hget a t).trans ?_⟩
  simp only [List.mem_map]
  constructor
  · rintro (⟨⟨col, hc, rfl⟩, hname⟩ | h)
    · exact ⟨col, hc, hname, congrArg (Table.ofColumn · (.data col)) hname⟩
    · cases h
  · rintro ⟨col, hc, rfl, rfl⟩
    exact Or.inl ⟨⟨col, hc, rfl⟩, rfl⟩

theorem Collected.names {rs : List Reading} {columns : List DataColumn}
    (h : Collected b rs actions columns) : columns.map (·.name) = actions.map (·.name) := by
  induction h with
  | nil => rfl
  | cons ha _ ih => rw [List.map_cons, List.map_cons, ha.1, ih]

theorem Collected.of_mem {rs : List Reading} {columns : List DataColumn}
    (h : Collected b rs actions columns) {x : ScanAction} (hx : x ∈ actions) :
    ∃ col ∈ columns, col.name = x.name ∧ col.Lists b (rs.filter (·.satisfies x.accepts)) := by
  induction h with
  | nil => cases hx
  | @cons a col actions columns ha _ ih =>
    rcases List.mem_cons.1 hx with rfl | hx
    · exact ⟨col, List.mem_cons_self .., ha⟩
    · obtain ⟨col, hc, h⟩ := ih hx
      exact ⟨col, List.mem_cons_of_mem _ hc, h⟩

theorem Collected.tabulates {columns : List DataColumn}
    (h : Collected b (vs.filterMap l.read) actions columns) (hn : (actions.map (·.name)).Nodup) :
    ∃ tables, tablesOf columns = .ok tables ∧ Tabulates b l vs actions tables := by
  obtain ⟨tables, hrun, hget⟩ := get?_tablesOf (by rw [h.names]; exact hn)
  refine ⟨tables, hrun, fun x hx => ?_, fun name t ht => ?_⟩
  · obtain ⟨col, hcol, hname, hlists⟩ := h.of_mem hx
    exact ⟨col, (hget _ _).2 ⟨col, hcol, hname, rfl⟩, hname, hlists⟩
  · obtain ⟨col, hcol, rfl, -⟩ := (hget name t).1 ht
    have hm : col.name ∈ columns.map (·.name) := List.mem_map_of_mem hcol
    rw [h.names] at hm
    obtain ⟨x, hx, hxn⟩ := List.mem_map.1 hm
    exact ⟨x, hx, hxn⟩

/-- A scan of a listing, page by page, tabulates the vertices that it is served and registers those
that it collects. -/
theorem wpE_run_kept {a : App} {limit : Nat} {k : Catalog} {w : World} (hw : w.graph.Faithful k)
    (hserved : ∀ v ∈ served a.store limit 0, k.find v.id = some v)
    (hn : (actions.map (·.name)).Nodup) :
    wpE (run a limit actions) (fun tables w' => w.graph.Grows w'.graph ∧ w'.graph.Faithful k ∧
      Tabulates w'.graph.bindings w.graph.language (served a.store limit 0) actions tables ∧
      (w.graph.registry.capacity = none → ∀ x ∈ actions,
        ∀ r ∈ x.collects w.graph.language (served a.store limit 0),
          w'.graph.registry.contains r.id = true)) Never w := by
  unfold run
  rw [wpE_bind, wpE_lift]
  refine wp_mono (wp_collect hw hserved) fun columns w' h => ?_
  obtain ⟨hg, hf, hc, hkept⟩ := h
  obtain ⟨tables, hrun, htab⟩ := Collected.tabulates hc hn
  rw [hrun, wpE_except]
  refine ⟨hg, hf, htab, fun hnone x hx r hr => ?_⟩
  obtain ⟨hr, hsat⟩ := List.mem_filter.1 hr
  exact hkept hnone r hr (List.any_eq_true.2 ⟨x, hx, hsat⟩)

theorem wpE_run {a : App} {limit : Nat} {k : Catalog} {w : World} (hw : w.graph.Faithful k)
    (hserved : ∀ v ∈ served a.store limit 0, k.find v.id = some v)
    (hn : (actions.map (·.name)).Nodup) :
    wpE (run a limit actions) (fun tables w' => w.graph.Grows w'.graph ∧ w'.graph.Faithful k ∧
      Tabulates w'.graph.bindings w.graph.language (served a.store limit 0) actions tables)
      Never w :=
  wpE_of_never (wpE_run_kept hw hserved hn) fun _ _ h => ⟨h.1, h.2.1, h.2.2.1⟩

theorem wpE_run_names {a : App} {limit : Nat} {w : World} (hn : (actions.map (·.name)).Nodup) :
    wpE (run a limit actions) (fun tables _ => tables.Named ∧
      ∀ name, (∃ t, tables.get? name = some t) ↔ name ∈ actions.map (·.name)) Never w := by
  unfold run
  rw [wpE_bind, wpE_lift]
  refine wp_mono (wp_names a.store limit w) fun columns w' h => ?_
  rw [← h] at hn ⊢
  obtain ⟨tables, hrun, hget⟩ := get?_tablesOf hn
  rw [hrun, wpE_except]
  refine ⟨fun name t ht => ?_, fun name => ?_⟩
  · obtain ⟨col, -, -, rfl⟩ := (hget name t).1 ht
    rfl
  · rw [List.mem_map]
    constructor
    · rintro ⟨t, ht⟩
      obtain ⟨col, hcol, hname, -⟩ := (hget name t).1 ht
      exact ⟨col, hcol, hname⟩
    · rintro ⟨col, hcol, hname⟩
      exact ⟨_, (hget name _).2 ⟨col, hcol, hname, rfl⟩⟩

end Scan

theorem App.batchSize_pos {o : DatabaseOptions} {s : GraphStore} {a : App}
    (h : App.new o s = .ok a) : 0 < a.batchSize := by
  unfold App.new DatabaseOptions.validate at h
  split at h
  · cases h
  · next hpos =>
    split at h
    · cases h
    · cases h
      exact Nat.pos_of_ne_zero hpos

theorem App.store_eq {o : DatabaseOptions} {s : GraphStore} {a : App} (h : App.new o s = .ok a) :
    a.store = s := by
  unfold App.new at h
  cases hv : o.validate with
  | error e => rw [hv] at h; cases h
  | ok u => rw [hv] at h; cases h; rfl

theorem InMemoryStore.served_toStore (s : InMemoryStore) {limit : Nat} (hl : 0 < limit) :
    Scan.served s.toStore limit 0 = s.vertices.toList := by
  obtain ⟨n, hserved, hrej⟩ := s.cuts_toStore.served_eq_take hl 0
  rw [hserved, List.drop_zero]
  refine List.take_of_length_le (Nat.le_of_not_lt fun hlt => ?_)
  rw [Nat.zero_add] at hrej
  obtain ⟨e, he⟩ := hrej hlt
  cases he

theorem InMemoryStore.Holds.served_eq {d : GraphDump} {s : InMemoryStore} (hd : Holds d s)
    {o : DatabaseOptions} {a : App} (ha : App.new o s.toStore = .ok a) :
    Scan.served a.store a.batchSize 0 = d.vertices := by
  rw [App.store_eq ha, s.served_toStore (App.batchSize_pos ha), hd.vertices_eq]

namespace Scan
variable {o : DatabaseOptions} {s : GraphStore} {a : App} {listing : List Vertex}
  {actions : List ScanAction} {w : World}

theorem pageSize_pos (h : App.new o s = .ok a) (other : Option Nat) : 0 < pageSize a other := by
  unfold pageSize
  cases other with
  | none => exact App.batchSize_pos h
  | some n => exact Nat.lt_of_lt_of_le Nat.zero_lt_one (Nat.le_max_right ..)

/-- A scan succeeds with one table for each action. What an action has collected are the vertices
served that can be resolved and that it accepts, in the order of the listing, each once; and served
is the listing up to the first rejected page, so all of it if no page is rejected. -/
theorem run_classifies (ha : App.new o s = .ok a) (hids : (listing.map (·.id)).Nodup)
    (hcuts : s.Cuts listing) (other : Option Nat) (hn : (actions.map (·.name)).Nodup)
    (hw : w.graph.Faithful (.ofListing listing)) :
    ∃ n tables w',
      (run a (pageSize a other) actions).run.run w = (.ok tables, w') ∧
      Tabulates w'.graph.bindings w.graph.language (listing.take n) actions tables ∧
      (∀ x : ScanAction, ((x.collects w.graph.language (listing.take n)).map Reading.id).Nodup) ∧
      served s (pageSize a other) 0 = listing.take n ∧
      (n < listing.length → ∃ e, s.vertices n (pageSize a other) = .error e) ∧
      ((∀ offset e, offset < listing.length → s.vertices offset (pageSize a other) ≠ .error e) →
        listing.take n = listing) ∧
      w'.graph.Faithful (.ofListing listing) := by
  have hstore : a.store = s := App.store_eq ha
  obtain ⟨n, hserved, hrej⟩ := hcuts.served_eq_take (pageSize_pos ha other) 0
  rw [List.drop_zero] at hserved
  rw [Nat.zero_add] at hrej
  have hfind : ∀ v ∈ served a.store (pageSize a other) 0,
      (Catalog.ofListing listing).find v.id = some v := by
    intro v hv
    rw [hstore, hserved] at hv
    exact Catalog.find_ofListing hids (List.mem_of_mem_take hv)
  obtain ⟨tables, w', hrun, -, hf, htab⟩ := exists_of_wpE (wpE_run hw hfind hn)
  rw [hstore, hserved] at htab
  refine ⟨n, tables, w', hrun, htab, fun x => ?_, hserved, hrej, fun hall => ?_, hf⟩
  · exact ScanAction.nodup_collects (hids.sublist ((List.take_sublist n listing).map _))
  · rcases Nat.lt_or_ge n listing.length with hlt | hge
    · obtain ⟨e, he⟩ := hrej hlt
      exact absurd he (hall n e hlt)
    · exact List.take_of_length_le hge

/-- Two files, with a vertex between them that stands for nothing. -/
def twoFiles : InMemoryStore :=
  ⟨#[.bare ⟨1⟩ fileLabel, .bare ⟨2⟩ "comment", .bare ⟨3⟩ fileLabel], ∅, ∅⟩

theorem run_classifies_twoFiles :
    ∃ tables w' col,
      (run ⟨.default, twoFiles.toStore⟩ (pageSize ⟨.default, twoFiles.toStore⟩ (some 0))
        [⟨"none", .none⟩, ⟨"all", .any⟩]).run.run
        (.new ⟨.default, twoFiles.toStore⟩ ⟨"plain", [], []⟩) = (.ok tables, w') ∧
      tables.get? "all" = some (.ofColumn "all" (.data col)) ∧
      col.cells.toList.map (Cell.map w'.graph.bindings.identity) =
        [.value (.node (.vertex ⟨1⟩) (.stub fileLabel) []),
          .value (.node (.vertex ⟨3⟩) (.stub fileLabel) [])] := by
  obtain ⟨n, tables, w', hrun, htab, -, -, -, hall, -⟩ :=
    @run_classifies .default twoFiles.toStore ⟨.default, twoFiles.toStore⟩
      twoFiles.vertices.toList [⟨"none", .none⟩, ⟨"all", .any⟩]
      (.new ⟨.default, twoFiles.toStore⟩ ⟨"plain", [], []⟩) rfl (by decide)
      twoFiles.cuts_toStore (some 0) (by decide)
      (Context.faithful_new (fun _ h => absurd h List.not_mem_nil) none)
  rw [hall fun offset e _ h => nomatch h] at htab
  obtain ⟨col, hget, -, hlists⟩ := htab.column ⟨"all", .any⟩ (by simp)
  exact ⟨tables, w', col, hrun, hget, hlists.cells.trans rfl⟩

end Scan

end CodeGraph
