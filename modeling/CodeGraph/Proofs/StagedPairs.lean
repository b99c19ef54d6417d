import CodeGraph.Proofs.FailedStage
import CodeGraph.Proofs.OrderOfUse
import CodeGraph.Proofs.Recency
import CodeGraph.Proofs.Scan

/-!
# How long staged pairs are visible

Staging is by vertex and guards are not: whoever drops one guard of a vertex takes back the stage of
all of them, and so does a scan that goes over the vertex. `Event.Shown` says that a pair of the vertex
was staged and that neither has happened since. That is when a vertex without an entry is found
(`Event.staged_until_first_taken_back`); then a guard of it is alive, but the converse fails for the
second of two guards (`Event.guard_alive_but_hidden`).
-/

namespace CodeGraph

namespace Access
variable {c : Context}

def staged (m : Std.HashMap VertexId Registration) : Access → Std.HashMap VertexId Registration
  | stage r => m.insert r.id r
  | unstage id => m.erase id
  | _ => m

theorem wp_resolve_staged (v : Vertex) (policy : CachePolicy) (c : Context) :
    wp (Context.resolve v policy).run (fun _ c' => c'.staged = c.staged) c := by
  have hbypass : wp (Context.resolve v .bypass).run (fun _ c' => c'.staged = c.staged) c :=
    wp_run.2 (wpE_mono (Context.wpE_resolve_undisturbed v c) (fun _ _ h => h.2.2.staged)
      fun _ _ h => congrArg Context.staged h.2)
  cases policy with
  | bypass => exact hbypass
  | store =>
    rw [Context.resolve_store, wp_run, wpE_bind]
    exact wpE_mono (wp_run.1 hbypass) (fun _ _ h => h) fun _ _ h => h

theorem wp_lookup_of {P : Context → Prop} (key : NodeKey) (hused : ∀ c', c.Alike c' → P c')
    (hresolve : ∀ v c', c.Alike c' → wp (Context.resolve v .store).run (fun _ => P) c') :
    wp (Context.lookup key).run (fun _ => P) c := by
  have hknown (id : VertexId) : wp (Context.known id).run (fun _ => P) c :=
    wp_run.2 (wpE_mono (Context.wpE_known c id) (fun _ _ => hused _) fun _ _ => hused _)
  cases key with
  | vertex v =>
    unfold Context.lookup
    show wp (_ >>= _ : Resolving _).run _ _
    rw [wp_run, wpE_bind, wpE_lift]
    refine wp_mono (Context.wp_cached? c v.id) fun found c' hc => ?_
    cases found with
    | some r => exact hused c' hc.2
    | none => exact wp_run.1 (hresolve v c' hc.2)
  | id id => exact hknown id
  | node n => exact hknown n.id
  | value v =>
    unfold Context.lookup Context.vertexOf
    show wp (_ >>= _ : Resolving _).run _ _
    rw [wp_run, wpE_bind, wpE_bind, wpE_get]
    cases c.bindings.vertex? v with
    | none => exact hused c (.refl c)
    | some id => exact wp_run.1 (hknown id)

theorem wp_lookup_staged (key : NodeKey) (c : Context) :
    wp (Context.lookup key).run (fun _ c' => c'.staged = c.staged) c :=
  wp_lookup_of key (fun _ ha => ha.staged) fun v c' ha => ha.staged ▸ wp_resolve_staged v .store c'

theorem wp_staged (call : Access) (c : Context) :
    wp call.run (fun _ c' => c'.staged = call.staged c.staged) c := by
  cases call with
  | lookup key => exact wp_lookup_staged key c
  | resolve v policy => exact wp_resolve_staged v policy c
  | register new => exact rfl
  | contains id => exact rfl
  | stage r => exact rfl
  | unstage id => exact rfl
  | clear => exact rfl

end Access

namespace Scan
variable {actions : List ScanAction} {columns : List DataColumn} {c : Context} {x : VertexId}

theorem onlyUses_answers (actions : List ScanAction) (v : Value) :
    Context.OnlyUses (answers actions v) := by
  unfold answers
  induction actions with
  | nil => exact Context.onlyUses_pure []
  | cons a actions ih =>
    rw [List.mapM_cons]
    exact (Context.looks_onlyUses.test a.accepts v).bind fun _ => ih.bind fun _ => .refl

/-- Going over a vertex takes back what was staged for it. -/
theorem wp_classify_staged (v : Vertex) (c : Context) (x : VertexId) :
    wp (classify actions columns v) (fun _ c' => x ∈ c'.staged ↔
      ¬(v.resolves = true ∧ v.id = x) ∧ x ∈ c.staged) c := by
  unfold classify
  rw [wp_bind, wp_run]
  refine wpE_mono (Context.wpE_resolve_undisturbed v c) (fun built c₁ hr => ?_) fun e c₁ he => ?_
  · obtain ⟨hv, hid, hc⟩ := hr
    show wp (Context.stage built >>= _) _ c₁
    rw [wp_bind, Context.wp_stage, wp_bind]
    refine wp_mono (onlyUses_answers actions built.value _) fun yes c₂ ha => ?_
    rw [wp_bind, Context.wp_unstage]
    have hstaged : x ∈ c₂.staged.erase built.id ↔
        ¬(v.resolves = true ∧ v.id = x) ∧ x ∈ c.staged := by
      have hc₂ : c₂.staged = c.staged.insert built.id built := by rw [ha.staged, ← hc.staged]
      rw [hc₂, hid, hv, Std.HashMap.mem_erase, Std.HashMap.mem_insert, beq_eq_false_iff_ne, beq_iff_eq]
      by_cases hx : v.id = x <;> simp [hx]
    split
    · exact hstaged
    · exact hstaged
  · obtain ⟨hv, rfl⟩ := he
    show x ∈ c₁.staged ↔ _
    rw [hv]
    simp

theorem wp_run_staged (a : App) (limit : Nat) (actions : List ScanAction) (w : World) (x : VertexId) :
    wp (Scan.run a limit actions).run (fun _ w' => x ∈ w'.graph.staged ↔
      ¬(∃ v ∈ served a.store limit 0, v.resolves = true ∧ v.id = x) ∧ x ∈ w.graph.staged) w := by
  unfold Scan.run
  rw [wp_run, wpE_bind, wpE_lift]
  refine wp_mono (wp_pages (fun done _ c => x ∈ c.staged ↔
    ¬(∃ v ∈ done, v.resolves = true ∧ v.id = x) ∧ x ∈ w.graph.staged)
    (fun _ _ _ h => h) (fun done v columns c _ hI => ?_) (by simp)) fun columns w' h => ?_
  · refine wp_mono (wp_classify_staged v c x) fun _ c' hv => ?_
    rw [hv, hI, ← and_assoc]
    refine and_congr_left' ?_
    simp only [List.mem_append, List.mem_singleton, or_and_right, exists_or, not_or, exists_eq_left]
    exact and_comm
  · rw [wpE_except]
    cases tablesOf columns <;> exact h

end Scan

/-- What can happen to a context: a call on it, or a scan over the vertices of the store. -/
inductive Event where
  | call (c : Access)
  | scan (limit : Nat) (actions : List ScanAction)

namespace Event
open Query.WhereStage (nowhere)

def run (a : App) : Event → WorldM Unit
  | call c => do
    let _ ← World.onGraph c.run
  | scan limit actions => do
    let _ ← (Scan.run a limit actions).run

def runAll (a : App) (es : List Event) : WorldM Unit := es.forM (run a)

def Stages (x : VertexId) : Event → Prop
  | call (.stage r) => r.id = x
  | _ => False

/-- The event takes back what is staged for the vertex: a guard of it is dropped, or a scan goes over
it. -/
def TakesBack (s : GraphStore) (x : VertexId) : Event → Prop
  | call (.unstage id) => id = x
  | scan limit _ => ∃ v ∈ Scan.served s limit 0, v.resolves = true ∧ v.id = x
  | _ => False

def guards (alive : List VertexId) : Event → List VertexId
  | call (.stage r) => r.id :: alive
  | call (.unstage id) => alive.erase id
  | _ => alive

/-- A pair of the vertex was staged and has not been taken back since. -/
def Shown (s : GraphStore) (x : VertexId) (es : List Event) : Prop :=
  ∃ before e after, es = before ++ e :: after ∧ e.Stages x ∧ ∀ e' ∈ after, ¬ e'.TakesBack s x

variable {s : GraphStore} {x : VertexId} {e : Event} {es : List Event} {a : App}

theorem not_shown_nil : ¬ Shown s x [] := by
  rintro ⟨before, e, after, heq, -⟩
  exact absurd heq.symm (List.append_ne_nil_of_right_ne_nil before (List.cons_ne_nil _ _))

theorem shown_cons :
    Shown s x (e :: es) ↔ Shown s x es ∨ (e.Stages x ∧ ∀ e' ∈ es, ¬ e'.TakesBack s x) := by
  constructor
  · rintro ⟨before, e', after, heq, hs, hno⟩
    cases before with
    | nil =>
      obtain ⟨rfl, rfl⟩ := List.cons.inj heq
      exact Or.inr ⟨hs, hno⟩
    | cons y before =>
      obtain ⟨rfl, rfl⟩ := List.cons.inj heq
      exact Or.inl ⟨before, e', after, rfl, hs, hno⟩
  · rintro (⟨before, e', after, rfl, hs, hno⟩ | ⟨hs, hno⟩)
    · exact ⟨e :: before, e', after, rfl, hs, hno⟩
    · exact ⟨[], e, es, rfl, hs, hno⟩

theorem wp_run_staged (a : App) (e : Event) (w : World) (x : VertexId) :
    wp (e.run a) (fun _ w' => x ∈ w'.graph.staged ↔
      e.Stages x ∨ (¬ e.TakesBack a.store x ∧ x ∈ w.graph.staged)) w := by
  cases e with
  | scan limit actions =>
    show wp (_ >>= _) _ _
    rw [wp_bind]
    refine wp_mono (Scan.wp_run_staged a limit actions w x) fun _ w' h => ?_
    show _ ↔ False ∨ _
    rw [false_or]
    exact h
  | call c =>
    show wp (_ >>= _) _ _
    rw [wp_bind, wp_onGraph]
    refine wp_mono (c.wp_staged w.graph) fun _ c' hc => ?_
    show x ∈ c'.staged ↔ _
    rw [hc]
    cases c with
    | stage r =>
      show x ∈ w.graph.staged.insert r.id r ↔ r.id = x ∨ (¬ False ∧ _)
      rw [Std.HashMap.mem_insert, beq_iff_eq, not_false_eq_true, true_and]
    | unstage id =>
      show x ∈ w.graph.staged.erase id ↔ False ∨ (¬ id = x ∧ _)
      rw [Std.HashMap.mem_erase, beq_eq_false_iff_ne, false_or]
    | _ =>
      show x ∈ w.graph.staged ↔ False ∨ (¬ False ∧ _)
      rw [not_false_eq_true, true_and, false_or]

theorem wp_runAll_staged (a : App) (es : List Event) (w : World) (x : VertexId) :
    wp (runAll a es) (fun _ w' => x ∈ w'.graph.staged ↔
      Shown a.store x es ∨ ((∀ e ∈ es, ¬ e.TakesBack a.store x) ∧ x ∈ w.graph.staged)) w := by
  unfold runAll
  induction es generalizing w with
  | nil =>
    show _ ↔ _
    constructor
    · exact fun h => Or.inr ⟨fun _ he => absurd he List.not_mem_nil, h⟩
    · rintro (h | ⟨-, h⟩)
      · exact absurd h not_shown_nil
      · exact h
  | cons e es ih =>
    show wp (e.run a >>= fun _ => es.forM (run a)) _ w
    rw [wp_bind]
    refine wp_mono (wp_run_staged a e w x) fun _ w₁ h₁ => ?_
    refine wp_mono (ih w₁) fun _ w₂ h₂ => ?_
    rw [h₂, h₁, shown_cons, List.forall_mem_cons, or_assoc, and_or_left]
    exact or_congr_right (or_congr and_comm (and_left_comm.trans and_assoc.symm))

theorem mem_guards_foldl {alive : List VertexId} (hx : x ∈ alive)
    (h : ∀ e ∈ es, ¬ e.TakesBack s x) : x ∈ es.foldl guards alive := by
  induction es generalizing alive with
  | nil => exact hx
  | cons e es ih =>
    obtain ⟨he, hes⟩ := List.forall_mem_cons.1 h
    refine ih ?_ hes
    cases e with
    | scan limit actions => exact hx
    | call c =>
      cases c with
      | stage r => exact List.mem_cons_of_mem _ hx
      | unstage id => exact (List.mem_erase_of_ne fun hne => he hne.symm).2 hx
      | _ => exact hx

theorem Shown.mem_guards (h : Shown s x es) : x ∈ es.foldl guards [] := by
  obtain ⟨before, e, after, rfl, hs, hno⟩ := h
  rw [List.foldl_append, List.foldl_cons]
  refine mem_guards_foldl ?_ hno
  cases e with
  | scan limit actions => exact hs.elim
  | call c =>
    cases c with
    | stage r => exact hs ▸ List.mem_cons_self ..
    | _ => exact hs.elim

theorem wp_lookup_id (c : Context) (x : VertexId) :
    wp (Context.lookup (.id x)).run (fun found _ =>
      found = ((c.registry.peek? x).or c.staged[x]?).elim (.error (.notFound "node" x.text)) .ok) c := by
  unfold Context.lookup Context.known
  show wp (_ >>= _ : Resolving _).run _ _
  rw [wp_run, wpE_bind, wpE_lift]
  refine wp_mono (Context.wp_cached? c x) fun found c' hc => ?_
  obtain ⟨rfl, ha⟩ := hc
  cases c.registry.peek? x with
  | some r => exact rfl
  | none =>
    show wpE (_ >>= _) _ _ _
    rw [wpE_bind, wpE_get, ha.staged]
    cases c.staged[x]? <;> exact rfl

theorem lookup_id_of_missing {c : Context} (hr : c.registry.contains x = false) (hx : x ∉ c.staged) :
    ((Context.lookup (.id x)).run.run c).1 = .error (.notFound "node" x.text) := by
  have hpeek : c.registry.peek? x = none := Option.isNone_iff_eq_none.1 (Option.isSome_eq_false_iff.1 hr)
  rw [show ((Context.lookup (.id x)).run.run c).1 = _ from wp_lookup_id c x, hpeek,
    Std.HashMap.getElem?_eq_none hx]
  rfl

theorem lookup_id_eq_ok_iff {c : Context} :
    (∃ r, ((Context.lookup (.id x)).run.run c).1 = .ok r) ↔
      c.registry.contains x = true ∨ x ∈ c.staged := by
  rw [show ((Context.lookup (.id x)).run.run c).1 = _ from wp_lookup_id c x,
    ← Std.HashMap.isSome_getElem?_iff_mem]
  unfold Registry.contains
  rw [← Bool.or_eq_true, ← Option.isSome_or]
  cases (c.registry.peek? x).or c.staged[x]? <;> simp

theorem mem_staged_runAll (a : App) (l : Language) (es : List Event) (x : VertexId) :
    x ∈ ((runAll a es).run (.new a l)).2.graph.staged ↔ Shown a.store x es := by
  have hnew : x ∉ (World.new a l).graph.staged := Std.HashMap.not_mem_empty
  have hrun : _ ↔ _ := wp_runAll_staged a es (.new a l) x
  exact hrun.trans (or_iff_left fun h => hnew h.2)

/-- Whatever happens, a vertex is found if it is registered or if a pair of it was staged and neither
a guard of it has been dropped since nor a scan gone over it. Then a guard of it is alive. Otherwise
there is no such node. -/
theorem staged_until_first_taken_back (a : App) (l : Language) (es : List Event) (x : VertexId) :
    ∃ w, (runAll a es).run (.new a l) = ((), w) ∧
      ((∃ r, ((Context.lookup (.id x)).run.run w.graph).1 = .ok r) ↔
        w.graph.registry.contains x = true ∨ Shown a.store x es) ∧
      (Shown a.store x es → x ∈ es.foldl guards []) ∧
      (x ∉ es.foldl guards [] → w.graph.registry.contains x = false →
        ((Context.lookup (.id x)).run.run w.graph).1 = .error (.notFound "node" x.text)) := by
  have hstaged := mem_staged_runAll a l es x
  refine ⟨_, rfl, ?_, Shown.mem_guards, fun hx hr => ?_⟩
  · exact lookup_id_eq_ok_iff.trans (or_congr_right hstaged)
  · exact lookup_id_of_missing hr fun h => hx (hstaged.1 h).mem_guards

/-- A file is staged twice, and one of the two guards is dropped. -/
def secondGuard : List Event :=
  let file : Registration := ⟨.file (.bare ⟨1⟩ fileLabel) "", .node (.built 0) (.stub fileLabel) []⟩
  [.call (.stage file), .call (.stage file), .call (.unstage ⟨1⟩)]

/-- A vertex with a guard alive is not always found. -/
theorem guard_alive_but_hidden :
    ¬ ∀ (a : App) (l : Language) (es : List Event) (x : VertexId) (w : World),
      (runAll a es).run (.new a l) = ((), w) → x ∈ es.foldl guards [] →
        ∃ r, ((Context.lookup (.id x)).run.run w.graph).1 = .ok r := by
  intro h
  have hnot : ¬ Shown nowhere.store ⟨1⟩ secondGuard := by
    unfold secondGuard
    rw [shown_cons, shown_cons, shown_cons]
    simp [not_shown_nil, Stages, TakesBack]
  obtain ⟨r, hr⟩ := h nowhere ⟨"plain", [], []⟩ secondGuard ⟨1⟩
    ((runAll nowhere secondGuard).run (.new nowhere ⟨"plain", [], []⟩)).2 rfl (by decide)
  have hfails := lookup_id_of_missing
    (c := ((runAll nowhere secondGuard).run (.new nowhere ⟨"plain", [], []⟩)).2.graph) rfl
    fun hx => hnot ((mem_staged_runAll _ _ _ _).1 hx)
  cases hr.symm.trans hfails

end Event

end CodeGraph
