import CodeGraph.Proofs.Stages

/-!
# The states of a query

A query is used by calls that may fail: sources, filters, flows, selections, and handing it over.
`Query.Sound` holds of a query without stages and after every call, whether it has failed or not, so
it holds after any calls. A call scans the store (`Call.scans`) when it is the first that prepares a
query with actions. Any other call does the same whatever the application is, and a call that scans
does so once and goes on without the application.
-/

namespace CodeGraph

namespace Query

/-- Each live table has its own name, and before it is prepared the query is in order. -/
structure Sound (q : Query) : Prop where
  named : q.tables.Named
  recorded : q.prepared = false → q.Recorded

inductive Call where
  | source (s : Source)
  | filter (f : Filter)
  | flow (f : Flow)
  | select (names : List String)
  | handOver

namespace Call

def run (a : App) : Call → StageM Unit
  | source s => Query.source s
  | filter f => Query.filter a f
  | flow f => Query.flow a f
  | select names => Query.select a names
  | handOver => do let _ ← Query.handOver

def prepares : Call → Bool
  | source _ | handOver => false
  | filter _ | flow _ | select _ => true

/-- What a call does to a query that is prepared if it has to be. -/
def rest : Call → StageM Unit
  | source s => Query.source s
  | filter f => do
    let t ← takeTable f.name
    let t ← Stage.ofQueryM (World.resolving (f.apply t))
    giveTable t
    Stage.ofWorldM (World.count fun p => { p with filter := p.filter + 1 })
  | flow f => do
    requireTable f.source
    requireTable f.sink
    f.barrier.forM requireTable
    let source ← takeTable f.source
    let sink ← takeTable f.sink
    let barrier ← f.barrier.mapM takeTable
    let t ← Stage.ofQueryM (f.apply source sink barrier)
    giveTable (t.renamed f.name)
    Stage.ofWorldM (World.count fun p => { p with flow := p.flow + 1 })
  | select names => do
    let q ← Stage.query
    let t ← q.tables.onlyTable
    Stage.update fun q => { q with tables := .empty }
    let b ← Stage.ofWorldM World.bindings
    let result ← t.project b names
    Stage.update fun q => { q with result := some result }
    Stage.ofWorldM (World.count fun p => { p with select := p.select + 1 })
  | handOver => do let _ ← Query.handOver

theorem run_of_prepares {c : Call} (h : c.prepares = true) (a : App) :
    c.run a = prepare a >>= fun _ => c.rest := by
  cases c with
  | source | handOver => cases h
  | filter | flow | select => rfl

theorem run_of_not_prepares {c : Call} (h : c.prepares = false) (a : App) : c.run a = c.rest := by
  cases c with
  | source | handOver => rfl
  | filter | flow | select => cases h

end Call

/-! ### What keeps a query sound -/

section
variable {α β : Type} {I : Query → Prop} {a : App} {q : Query} {w : World}

/-- Whether it fails or not, a stage that starts with `I` ends with `I`. -/
def Keeps (I : Query → Prop) (m : StageM α) : Prop :=
  ∀ q w, I q → wpS m (fun _ q' _ => I q') (fun _ q' _ => I q') q w

theorem Keeps.bind {m : StageM α} {f : α → StageM β} (h : Keeps I m) (hf : ∀ x, Keeps I (f x)) :
    Keeps I (m >>= f) := by
  intro q w hq
  rw [wpS_bind]
  exact wpS_mono (h q w hq) (fun x q' w' hq' => hf x q' w' hq') fun _ _ _ hq' => hq'

theorem keeps_pure (x : α) : Keeps I (pure x) := fun _ _ h => h

theorem keeps_query : Keeps I Stage.query := fun _ _ h => h

theorem keeps_except (x : Except Error α) : Keeps I (liftM x : StageM α) := by
  intro q w hq
  rw [wpS_except]
  cases x <;> exact hq

theorem keeps_ofQueryM (m : QueryM α) : Keeps I (Stage.ofQueryM m) := by
  intro q w hq
  rw [wpS_ofQueryM]
  exact wpE_mono wpE_trivial (fun _ _ _ => hq) fun _ _ _ => hq

theorem keeps_ofWorldM (m : WorldM α) : Keeps I (Stage.ofWorldM m) := fun _ _ h => h

theorem keeps_update {f : Query → Query} (h : ∀ q, I q → I (f q)) : Keeps I (Stage.update f) :=
  fun q _ hq => h q hq

theorem keeps_mapM {f : String → StageM α} (hf : ∀ x, Keeps I (f x)) (o : Option String) :
    Keeps I (o.mapM f) := by
  cases o with
  | none => exact keeps_pure none
  | some x => exact (hf x).bind fun y => keeps_pure (some y)

theorem keeps_forM {f : String → StageM PUnit} (hf : ∀ x, Keeps I (f x)) (o : Option String) :
    Keeps I (o.forM f) := by
  cases o with
  | none => exact keeps_pure _
  | some x => exact hf x

structure Live (actions : List ScanAction) (q : Query) : Prop where
  prepared : q.prepared = true
  actions_eq : q.actions = actions
  named : q.tables.Named

variable {actions : List ScanAction}

theorem Live.sound (h : q.Live actions) : q.Sound :=
  ⟨h.named, fun hp => absurd (h.prepared.symm.trans hp) Bool.true_eq_false.mp⟩

theorem keeps_takeTable (name : String) : Keeps (Live actions) (takeTable name) := by
  intro q w hq
  rw [wpS_takeTable]
  cases q.tables.get? name with
  | none => exact hq
  | some t => exact ⟨hq.prepared, hq.actions_eq, hq.named.erase name⟩

theorem keeps_giveTable (t : Table) : Keeps (Live actions) (giveTable t) := by
  intro q w hq
  rw [wpS_giveTable]
  cases q.tables.get? t.name with
  | none => exact ⟨hq.prepared, hq.actions_eq, hq.named.insert t⟩
  | some u => exact hq

theorem keeps_requireTable (name : String) : Keeps I (requireTable name) := by
  intro q w hq
  rw [wpS_requireTable]
  cases q.tables.get? name <;> exact hq

theorem Call.keeps_rest {c : Call} (h : c.prepares = true) : Keeps (Live actions) c.rest := by
  cases c with
  | source | handOver => cases h
  | filter f =>
    refine (keeps_takeTable f.name).bind fun t => ?_
    refine (keeps_ofQueryM _).bind fun t => ?_
    exact (keeps_giveTable t).bind fun _ => keeps_ofWorldM _
  | flow f =>
    refine (keeps_requireTable f.source).bind fun _ => ?_
    refine (keeps_requireTable f.sink).bind fun _ => ?_
    refine (keeps_forM keeps_requireTable f.barrier).bind fun _ => ?_
    refine (keeps_takeTable f.source).bind fun source => ?_
    refine (keeps_takeTable f.sink).bind fun sink => ?_
    refine (keeps_mapM keeps_takeTable f.barrier).bind fun barrier => ?_
    refine (keeps_ofQueryM _).bind fun t => ?_
    exact (keeps_giveTable _).bind fun _ => keeps_ofWorldM _
  | select names =>
    refine keeps_query.bind fun q => ?_
    refine (keeps_except _).bind fun t => ?_
    refine (keeps_update fun q hq => ⟨hq.prepared, hq.actions_eq, TableSet.named_empty⟩).bind fun _ => ?_
    refine (keeps_ofWorldM _).bind fun b => ?_
    refine (keeps_except _).bind fun result => ?_
    refine (keeps_update ?_).bind fun _ => keeps_ofWorldM _
    exact fun q hq => ⟨hq.prepared, hq.actions_eq, hq.named⟩

theorem Sound.wpS_prepare (h : q.Sound) :
    wpS (prepare a) (fun _ q' _ => q'.Live q.actions ∧
      (q.prepared = false → ∀ x, (∃ t, q'.tables.get? x = some t) ↔ x ∈ q.aliases)) NeverS q w := by
  cases hp : q.prepared with
  | true =>
    rw [wpS_prepare_of_prepared hp]
    exact ⟨⟨hp, rfl, h.named⟩, fun hf => nomatch hf⟩
  | false =>
    have hr := h.recorded hp
    refine wpS_mono (hr.wpS_prepare hp hr.wpE_scan) (fun _ q' w' hq => ?_) fun _ _ _ h => h
    obtain ⟨scanned, tables, -, rfl, hn, -, hlive⟩ := hq
    exact ⟨⟨rfl, rfl, hn⟩, fun _ => hlive⟩

/-- The query with one more source, whose alias is new. -/
def record (q : Query) (s : Source) : Query :=
  match s.mode with
  | .data => { q with
      actions := q.actions ++ [⟨s.name, s.accepts⟩]
      aliases := q.aliases ++ [s.name] }
  | .predicate => { q with
      pending := ⟨q.pending.tables.insert s.name (.ofColumn s.name (.predicate s.name s.accepts))⟩
      aliases := q.aliases ++ [s.name] }

theorem Recorded.withSource_eq (h : q.Recorded) (hp : q.prepared = false) (s : Source) :
    q.withSource s =
      if s.name ∈ q.aliases then .error (.duplicateName "table" s.name) else .ok (q.record s) := by
  unfold withSource record
  rw [if_neg (by rw [hp]; exact Bool.false_ne_true)]
  by_cases hin : s.name ∈ q.aliases
  · rw [if_pos (List.contains_iff_mem.2 hin), if_pos hin]
  · rw [if_neg fun hc => hin (List.contains_iff_mem.1 hc), if_neg hin]
    have hfree := mt h.mem_aliases.2 hin
    cases s.mode with
    | data =>
      have hany : ¬ (q.actions.any (·.name == s.name)) = true := by
        intro hany
        obtain ⟨x, hx, hname⟩ := List.any_eq_true.1 hany
        exact hfree (Or.inl (List.mem_map.2 ⟨x, hx, eq_of_beq hname⟩))
      simp only [addAction, if_neg hany]
      rfl
    | predicate =>
      have hnone : q.pending.get? (Table.ofColumn s.name (.predicate s.name s.accepts)).name = none := by
        cases hg : q.pending.get? s.name with
        | none => exact hg
        | some t => exact absurd (Or.inr (TableSet.mem_aliases_iff.2 ⟨t, hg⟩)) hfree
      simp only [TableSet.add_of_none hnone]
      rfl

theorem Recorded.record (h : q.Recorded) {s : Source} (hnew : s.name ∉ q.aliases) :
    (q.record s).Recorded := by
  have hnodup : (q.aliases ++ [s.name]).Nodup :=
    (List.perm_append_singleton ..).nodup_iff.2 (List.nodup_cons.2 ⟨hnew, h.nodup⟩)
  have hfree := mt h.mem_aliases.2 hnew
  unfold Query.record
  cases s.mode with
  | data =>
    refine ⟨h.tables, h.result, hnodup, ?_, h.pending⟩
    rw [List.map_append, List.append_assoc]
    refine (h.aliases.append_right [s.name]).trans ?_
    rw [List.append_assoc]
    exact (List.perm_append_comm).append_left _
  | predicate =>
    have hnone : q.pending.get? s.name = none := by
      cases hg : q.pending.get? s.name with
      | none => rfl
      | some t => exact absurd (Or.inr (TableSet.mem_aliases_iff.2 ⟨t, hg⟩)) hfree
    refine ⟨h.tables, h.result, hnodup, ?_, h.pending.insert (.ofColumn s.name _)⟩
    refine (h.aliases.append_right [s.name]).trans ?_
    rw [List.append_assoc]
    refine List.Perm.append_left _ ?_
    exact (List.perm_append_singleton ..).trans
      (TableSet.aliases_insert (t := .ofColumn s.name (.predicate s.name s.accepts)) hnone).symm

theorem run_source_of_error {s : Source} {e : Error} {q' : Query} {w' : World}
    (h : (q.run (source s)).run w = ((.error e, q'), w')) : q' = q ∧ w' = w := by
  have hs : wpS (source s) (fun _ _ _ => True) (fun _ q' w' => q' = q ∧ w' = w) q w := by
    rw [wpS_source]
    cases q.withSource s with
    | ok q' => trivial
    | error e => exact ⟨rfl, rfl⟩
  unfold wpS wp at hs
  rw [show ((source s).run.run q).run w = ((.error e, q'), w') from h] at hs
  exact hs

end

/-! ### Calls -/

namespace Call
variable {a a' : App} {c : Call} {q : Query} {w : World}

def after (a : App) (x : Query × World) (c : Call) : Query × World :=
  let r := (x.1.run (c.run a)).run x.2
  (r.1.2, r.2)

theorem after_of_wpS {R : Query → World → Prop}
    (h : wpS (c.run a) (fun _ => R) (fun _ => R) q w) :
    R (after a (q, w) c).1 (after a (q, w) c).2 := by
  unfold wpS wp at h
  show R (((c.run a).run.run q).run w).1.2 (((c.run a).run.run q).run w).2
  rcases hr : ((c.run a).run.run q).run w with ⟨⟨r, q'⟩, w'⟩
  rw [hr] at h
  cases r <;> exact h

def scans (c : Call) (q : Query) : Bool := c.prepares && !q.prepared && !q.actions.isEmpty

def asksForData : Call → Bool
  | source s => s.mode == .data
  | _ => false

/-- One call: the query stays sound, it is prepared after a call that prepares it and stays so until
it is handed over, and only a source of data adds an action. -/
structure Follows (c : Call) (q q' : Query) : Prop where
  sound : q'.Sound
  prepared : c.prepares = true → q'.prepared = true
  stays : c ≠ .handOver → q.prepared = true → q'.prepared = true
  actions : c.asksForData = false → q.actions = [] → q'.actions = []

theorem sound_empty : empty.Sound := ⟨TableSet.named_empty, fun _ => recorded_empty⟩

theorem follows_after (h : q.Sound) (a : App) (c : Call) (w : World) :
    c.Follows q (after a (q, w) c).1 := by
  refine after_of_wpS (R := fun q' _ => c.Follows q q') ?_
  cases hc : c.prepares with
  | true =>
    have hlive : ∀ q' : Query, q'.Live q.actions → c.Follows q q' := fun q' hq => {
      sound := hq.sound
      prepared := fun _ => hq.prepared
      stays := fun _ _ => hq.prepared
      actions := fun _ hnil => hq.actions_eq.trans hnil }
    rw [run_of_prepares hc, wpS_bind]
    refine wpS_of_never h.wpS_prepare fun _ q' w' hq => ?_
    exact wpS_mono (keeps_rest hc q' w' hq.1) (fun _ q'' _ => hlive q'') fun _ q'' _ => hlive q''
  | false =>
    cases c with
    | filter | flow | select => cases hc
    | handOver =>
      exact ⟨sound_empty, (fun hf => nomatch hf), fun hf => absurd rfl hf, fun _ _ => rfl⟩
    | source s =>
      have hsame : Follows (.source s) q q :=
        ⟨h, (fun hf => nomatch hf), fun _ hp => hp, fun _ hq => hq⟩
      show wpS (Query.source s) _ _ q w
      rw [wpS_source]
      cases hp : q.prepared with
      | true =>
        rw [show q.withSource s = .error (.invalidStage "from") by
          unfold withSource; rw [if_pos hp]]
        exact hsame
      | false =>
        rw [(h.recorded hp).withSource_eq hp]
        by_cases hin : s.name ∈ q.aliases
        · rw [if_pos hin]
          exact hsame
        · rw [if_neg hin]
          have hr := (h.recorded hp).record hin
          refine ⟨⟨by rw [hr.tables]; exact TableSet.named_empty, fun _ => hr⟩, (fun hf => nomatch hf),
            fun _ hf => absurd (hp.symm.trans hf) Bool.false_ne_true, fun hd hnil => ?_⟩
          unfold record
          cases hm : s.mode with
          | data => rw [show asksForData (.source s) = (s.mode == .data) from rfl, hm] at hd; cases hd
          | predicate => exact hnil

theorem run_of_not_scans (h : c.scans q = false) (a a' : App) (w : World) :
    (q.run (c.run a)).run w = (q.run (c.run a')).run w := by
  refine run_eq_of_wpS fun Q E hQ => ?_
  cases hc : c.prepares with
  | false =>
    rw [run_of_not_prepares hc] at hQ ⊢
    exact hQ
  | true =>
    rw [run_of_prepares hc, wpS_bind] at hQ ⊢
    cases hp : q.prepared with
    | true =>
      rw [wpS_prepare_of_prepared hp] at hQ ⊢
      exact hQ
    | false =>
      have hnil : q.actions.isEmpty = true := by
        unfold scans at h
        rw [hc, hp] at h
        simpa using h
      have hscan : ∀ a, q.scan a = pure .empty := fun a => if_pos hnil
      rw [wpS_prepare hp, hscan] at hQ ⊢
      exact hQ

/-- The first call that needs a prepared query makes exactly the aliases live, with one scan if there
are actions, and goes on as any application would. -/
theorem run_of_first (hq : q.Sound) (hc : c.prepares = true) (hp : q.prepared = false) (a : App)
    (w : World) :
    ∃ scanned tables w₁, (q.scan a).run.run w = (.ok scanned, w₁) ∧
      (∀ x, (∃ t, tables.get? x = some t) ↔ x ∈ q.aliases) ∧
      (q.run (c.run a)).run w =
        ({ q with pending := .empty, tables, prepared := true }.run c.rest).run w₁ := by
  have hr := hq.recorded hp
  obtain ⟨scanned, w₁, hrun, hn, hnames⟩ := exists_of_wpE (hr.wpE_scan (a := a) (w := w))
  obtain ⟨tables, hjoin, -, -, hlive⟩ := hr.join hn hnames
  refine ⟨scanned, tables, w₁, hrun, hlive, run_eq_of_wpS fun Q E hQ => ?_⟩
  rw [run_of_prepares hc, wpS_bind, wpS_prepare hp, wpE_of_run hrun, hjoin]
  exact hQ

/-! ### Runs -/

def afterAll (a : App) (cs : List Call) (x : Query × World) : Query × World := cs.foldl (after a) x

def scanCount (a : App) : List Call → Query × World → Nat
  | [], _ => 0
  | c :: cs, x => (c.scans x.1).toNat + scanCount a cs (after a x c)

theorem sound_afterAll (h : q.Sound) (a : App) (cs : List Call) (w : World) :
    (afterAll a cs (q, w)).1.Sound := by
  induction cs generalizing q w with
  | nil => exact h
  | cons c cs ih => exact ih (follows_after h a c w).sound _

/-- Until a query is handed over it is scanned for at most once, and not at all once it is prepared. -/
theorem scanCount_le (h : q.Sound) (a : App) (cs : List Call) (w : World) (hcs : ∀ c ∈ cs, c ≠ .handOver) :
    scanCount a cs (q, w) ≤ (!q.prepared).toNat := by
  induction cs generalizing q w with
  | nil => exact Nat.zero_le _
  | cons c cs ih =>
    have hf := follows_after h a c w
    have hrest := ih hf.sound (after a (q, w) c).2 fun c hc => hcs c (List.mem_cons_of_mem _ hc)
    show (c.scans q).toNat + scanCount a cs (after a (q, w) c) ≤ _
    have hscans : c.scans q = true → q.prepared = false ∧ (after a (q, w) c).1.prepared = true := by
      intro hs
      unfold scans at hs
      rw [Bool.and_eq_true, Bool.and_eq_true, Bool.not_eq_true'] at hs
      exact ⟨hs.1.2, hf.prepared hs.1.1⟩
    cases hs : c.scans q with
    | true =>
      obtain ⟨hp, hp'⟩ := hscans hs
      rw [hp'] at hrest
      rw [hp]
      exact Nat.add_le_add_left hrest 1
    | false =>
      cases hp : q.prepared with
      | true =>
        rw [hf.stays (hcs c (List.mem_cons_self ..)) hp] at hrest
        exact Nat.le_trans (Nat.le_of_eq (Nat.zero_add _)) hrest
      | false =>
        have hone : (!(after a (q, w) c).1.prepared).toNat ≤ 1 := Bool.toNat_le _
        exact Nat.le_trans (Nat.le_of_eq (Nat.zero_add _)) (Nat.le_trans hrest hone)

theorem scanCount_eq_zero (h : q.Sound) (hnil : q.actions = []) (a : App) (cs : List Call) (w : World)
    (hcs : ∀ c ∈ cs, c.asksForData = false) : scanCount a cs (q, w) = 0 := by
  induction cs generalizing q w with
  | nil => rfl
  | cons c cs ih =>
    have hf := follows_after h a c w
    have hc := hcs c (List.mem_cons_self ..)
    have hscans : c.scans q = false := by
      unfold scans
      rw [hnil, List.isEmpty_nil, Bool.not_true, Bool.and_false]
    show (c.scans q).toNat + scanCount a cs (after a (q, w) c) = 0
    rw [hscans, ih hf.sound (hf.actions hc hnil) _ fun c hc => hcs c (List.mem_cons_of_mem _ hc)]
    rfl

end Call

/-- After any calls, failed or not: every live table has its own name; a query that is not prepared
has no live table and no result, and its aliases, all different, are those of its actions and of its
pending tables; preparing does not fail and makes exactly the aliases live; a rejected source changes
nothing. Until it is handed over a query is scanned for at most once, when it is new and is asked for
no data it is not scanned for at all, and a call that does not scan has no use for the application. -/
theorem calls_keep_order (a : App) (w₀ : World) (calls : List Call) :
    ∃ q w, Call.afterAll a calls (.empty, w₀) = (q, w) ∧
      q.tables.Named ∧
      (q.prepared = false → q.tables = .empty ∧ q.result = none ∧ q.aliases.Nodup ∧
        q.aliases.Perm (q.actions.map (·.name) ++ q.pending.aliases)) ∧
      (∃ q' w', (q.run (prepare a)).run w = ((.ok (), q'), w') ∧ q'.prepared = true ∧
        (q.prepared = false → ∀ x, (∃ t, q'.tables.get? x = some t) ↔ x ∈ q.aliases)) ∧
      (∀ s e q' w', (q.run (source s)).run w = ((.error e, q'), w') → q' = q ∧ w' = w) ∧
      (∀ cs, (∀ c ∈ cs, c ≠ .handOver) → Call.scanCount a cs (q, w) ≤ 1) ∧
      (∀ cs, (∀ c ∈ cs, c.asksForData = false) → Call.scanCount a cs (.empty, w) = 0) ∧
      (∀ c : Call, c.scans q = false → ∀ a', (q.run (c.run a)).run w = (q.run (c.run a')).run w) ∧
      (∀ c : Call, c.prepares = true → q.prepared = false → ∃ scanned tables w',
        (q.scan a).run.run w = (.ok scanned, w') ∧
        (∀ x, (∃ t, tables.get? x = some t) ↔ x ∈ q.aliases) ∧
        (q.run (c.run a)).run w =
          ({ q with pending := .empty, tables, prepared := true }.run c.rest).run w') := by
  have hs := Call.sound_afterAll Call.sound_empty a calls w₀
  refine ⟨_, _, rfl, hs.named, fun hp => ?_, ?_, fun s e q' w' => run_source_of_error,
    fun cs hcs => ?_, fun cs hcs => Call.scanCount_eq_zero Call.sound_empty rfl a cs _ hcs,
    fun c hc a' => Call.run_of_not_scans hc a a' _, fun c hc hp => Call.run_of_first hs hc hp a _⟩
  · have hr := hs.recorded hp
    exact ⟨hr.tables, hr.result, hr.nodup, hr.aliases⟩
  · obtain ⟨_, q', w', hrun, hlive, hx⟩ := exists_of_wpS hs.wpS_prepare
    exact ⟨q', w', hrun, hlive.prepared, hx⟩
  · exact Nat.le_trans (Call.scanCount_le hs a cs _ hcs) (Bool.toNat_le _)

end Query

end CodeGraph
