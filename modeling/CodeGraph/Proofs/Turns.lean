import CodeGraph.Query.Turns

/-!
# Work that is left alone

Between its turns work lets others in. Left alone it is one step of the world (`Work.alone`), and that is so
for work put together from work. So the turns of a scan come to the scan, and those of a stage to the stage
(`Work.Call.run_eq`).
-/

namespace CodeGraph

variable {α β : Type}

namespace Scan
variable {s : GraphStore} {limit offset : Nat} {actions : List ScanAction} {columns : List DataColumn}

theorem pages_of_error {e : Error} (h : s.vertices offset limit = .error e) :
    pages s limit actions columns offset = (do
      World.record (.page offset none)
      World.onGraph (Context.notify .pageRejected)
      return columns) := by
  rw [pages]
  split
  · rfl
  · next hp => cases h.symm.trans hp

theorem pages_of_ok {vs : List Vertex} (h : s.vertices offset limit = .ok vs) :
    pages s limit actions columns offset = (do
      World.record (.page offset (some vs.length))
      World.count fun p => { p with fetch := p.fetch + 1 }
      if vs = [] then return columns
      else
        let columns ← World.onGraph (classifyPage actions columns vs)
        World.count fun p => { p with classify := p.classify + vs.length.toUInt64 }
        pages s limit actions columns (offset + vs.length)) := by
  rw [pages]
  split
  · next hp => cases h.symm.trans hp
  · next hp =>
    cases h.symm.trans hp
    rfl

end Scan

namespace Work

theorem alone_bind (x : Work α) (f : α → Work β) : (x >>= f).alone = x.alone >>= fun a => (f a).alone := by
  induction x with
  | done a => rfl
  | turn m happens rest ih =>
    show (m >>= fun b => (rest b >>= f).alone) = (m >>= fun b => (rest b).alone) >>= _
    rw [bind_assoc]
    exact bind_congr ih

theorem run_bind (x : Work α) (f : α → Work β) (s : Scene) :
    (x >>= f).run s = (f (x.run s).1).run (x.run s).2 := by
  induction x generalizing s with
  | done a => rfl
  | turn m happens rest ih => exact ih _ _

/-- Without turns of others, what is left of the work is done as if it were one step. -/
theorem run_eq (x : Work α) (s : Scene) : ∃ happened,
    x.run s = ((x.alone.run s.world).1, ⟨(x.alone.run s.world).2, s.log ++ happened⟩) := by
  induction x generalizing s with
  | done a => exact ⟨[], by rw [List.append_nil]; rfl⟩
  | turn m happens rest ih =>
    obtain ⟨happened, h⟩ := ih (m.run s.world).1 ⟨(m.run s.world).2, s.log ++ happens (m.run s.world).1⟩
    exact ⟨happens (m.run s.world).1 ++ happened, by rw [← List.append_assoc]; exact h⟩

theorem alone_act (happens : α → List Occurrence) (m : WorldM α) : (act happens m).alone = m := bind_pure m

theorem alone_step (m : WorldM α) : (step m).alone = m := alone_act _ m

theorem alone_snapshot (reset : Bool) : (snapshot reset).alone = World.snapshot reset := by
  unfold snapshot
  simp only [alone_bind]
  cases reset <;> rfl

theorem alone_page (offset : Nat) (answer : Except Error (List Vertex)) :
    (page offset answer).alone = World.record (.page offset (answer.toOption.map List.length)) :=
  alone_act _ _

theorem alone_foldlM {f : β → α → Work β} {g : β → α → WorldM β} (h : ∀ b x, (f b x).alone = g b x)
    (xs : List α) (b : β) : (xs.foldlM f b).alone = xs.foldlM g b := by
  induction xs generalizing b with
  | nil => rfl
  | cons x xs ih =>
    rw [List.foldlM_cons, List.foldlM_cons, alone_bind, h]
    exact bind_congr ih

theorem alone_classifyPage (actions : List ScanAction) (columns : List DataColumn) (vs : List Vertex) :
    (classifyPage actions columns vs).alone = World.onGraph (Scan.classifyPage actions columns vs) := by
  refine (alone_foldlM (fun _ _ => alone_step _) vs columns).trans ?_
  unfold Scan.classifyPage
  induction vs generalizing columns with
  | nil => rfl
  | cons v vs ih => exact bind_congr ih

theorem alone_pages (s : GraphStore) (limit : Nat) (actions : List ScanAction) (columns : List DataColumn)
    (offset : Nat) :
    (pages s limit actions columns offset).alone = Scan.pages s limit actions columns offset := by
  induction hn : s.extent - offset using Nat.strongRecOn generalizing offset columns with
  | ind n ih =>
    rw [pages]
    split
    · next e he =>
      rw [Scan.pages_of_error he, alone_bind, alone_bind, alone_page, alone_step]
      rfl
    · next vs hvs =>
      rw [Scan.pages_of_ok hvs, alone_bind, alone_bind, alone_page, alone_step]
      refine bind_congr fun _ => bind_congr fun _ => ?_
      split
      · rfl
      · next hne =>
        rw [alone_bind, alone_classifyPage]
        refine bind_congr fun columns => ?_
        rw [alone_bind, alone_step]
        -- a page that is not empty moves the offset towards the end
        have hlt : offset < s.extent :=
          Nat.lt_of_not_le fun hle => hne (s.ends offset limit vs hle hvs)
        have hpos : 0 < vs.length := List.length_pos_iff.mpr hne
        exact bind_congr fun _ => ih _ (by omega) columns _ rfl

end Work

/-! ### Work that may fail -/

namespace Turns

theorem alone_bind (x : Turns α) (f : α → Turns β) : (x >>= f).alone = x.alone >>= fun a => (f a).alone := by
  show (x.run >>= ExceptT.bindCont f).alone = x.run.alone >>= ExceptT.bindCont fun a => (f a).alone
  rw [Work.alone_bind]
  refine bind_congr fun r => ?_
  cases r <;> rfl

theorem alone_lift (x : Work α) : (liftM x : Turns α).alone = liftM x.alone := Work.alone_bind x _

theorem alone_except (x : Except Error α) : (liftM x : Turns α).alone = liftM x := rfl

theorem alone_foldlM {f : β → α → Turns β} {g : β → α → QueryM β} (h : ∀ b x, (f b x).alone = g b x)
    (xs : List α) (b : β) : (xs.foldlM f b).alone = xs.foldlM g b := by
  induction xs generalizing b with
  | nil => rfl
  | cons x xs ih =>
    rw [List.foldlM_cons, List.foldlM_cons, alone_bind, h]
    exact bind_congr ih

end Turns

theorem Work.alone_scan (a : App) (limit : Nat) (actions : List ScanAction) :
    (scan a limit actions).alone = Scan.run a limit actions := by
  unfold scan Scan.run
  rw [Turns.alone_bind, Turns.alone_lift, alone_pages]
  rfl

theorem FlowInTurns.alone_addFindings (f : FlowInTurns) (source sink barrier : Column) (r : FlowResult)
    (cell : Cell Ref) : (f.addFindings source sink barrier r cell).alone =
      f.flow.addFindings source sink barrier r cell := by
  unfold addFindings Flow.addFindings
  cases cell.value? <;> rfl

theorem FlowInTurns.alone_apply (f : FlowInTurns) (source sink : Table) (barrier : Option Table) :
    (f.apply source sink barrier).alone = f.flow.apply source sink barrier := by
  unfold apply Flow.apply
  cases barrier <;>
  simp only [Turns.alone_bind, Turns.alone_except, Turns.alone_lift, Work.alone_step,
    Turns.alone_foldlM (f.alone_addFindings _ _ _)]
  · rfl
  · rfl

theorem Flow.flow_inTurns (f : Flow) : f.inTurns.flow = f := by
  obtain ⟨aliases, algorithm⟩ := f
  refine congrArg (Flow.mk aliases) ?_
  funext v source sink barrier r
  exact Work.alone_step _

/-! ### Stages -/

namespace StageTurns

theorem alone_bind (x : StageTurns α) (f : α → StageTurns β) :
    (x >>= f).alone = x.alone >>= fun a => (f a).alone := by
  funext q
  show (x.run.run q >>= fun r => ExceptT.bindCont f r.1 r.2).alone =
    (x.run.run q).alone >>= fun r => ExceptT.bindCont (fun a => (f a).alone) r.1 r.2
  rw [Work.alone_bind]
  refine bind_congr fun r => ?_
  obtain ⟨r, q'⟩ := r
  cases r <;> rfl

theorem alone_step (m : StageM α) : (step m).alone = m := funext fun q => Work.alone_step (m.run.run q)

theorem alone_except (x : Except Error α) : (liftM x : StageTurns α).alone = liftM x := rfl

theorem alone_ofTurns (x : Turns α) : (ofTurns x).alone = Stage.ofQueryM x.alone :=
  funext fun _ => Work.alone_bind x.run _

end StageTurns

namespace Work
open StageTurns

theorem alone_prepare (a : App) : (prepare a).alone = Query.prepare a := by
  unfold prepare Query.prepare
  rw [StageTurns.alone_bind, StageTurns.alone_step]
  refine bind_congr fun q => ?_
  split
  · rfl
  · split
    · simp only [StageTurns.alone_bind, StageTurns.alone_step, StageTurns.alone_except]
      rfl
    · simp only [StageTurns.alone_bind, StageTurns.alone_step, StageTurns.alone_except, alone_ofTurns,
        alone_scan]

theorem alone_filter (a : App) (f : Filter) : (filter a f).alone = Query.filter a f := by
  unfold filter Query.filter
  simp only [StageTurns.alone_bind, StageTurns.alone_step, alone_prepare]

theorem alone_flow (a : App) (f : FlowInTurns) : (flow a f).alone = Query.flow a f.flow := by
  unfold flow Query.flow
  simp only [StageTurns.alone_bind, StageTurns.alone_step, alone_prepare, alone_ofTurns, f.alone_apply]
  rfl

theorem alone_select (a : App) (names : List String) : (select a names).alone = Query.select a names := by
  unfold select Query.select
  simp only [StageTurns.alone_bind, StageTurns.alone_step, StageTurns.alone_except, alone_prepare]

theorem Call.alone_turns (a : App) (c : Call) (q : Query) :
    ((c.turns a).run.run q).alone = q.run (c.stage a) := by
  have h : (c.turns a).alone = c.stage a := by
    cases c with
    | filter f => exact alone_filter a f
    | flow f => exact alone_flow a f
    | select names => exact alone_select a names
  exact congrFun h q

/-- A call that is left alone does what the stage does, and at its end logs whether that has succeeded. -/
theorem Call.run_eq (a : App) (c : Call) (q : Query) (s : Scene) : ∃ happened,
    (c.run a q).run s = (((q.run (c.stage a)).run s.world).1, ⟨((q.run (c.stage a)).run s.world).2,
      s.log ++ happened ++ [.ended c.kind ((q.run (c.stage a)).run s.world).1.1.isOk]⟩) := by
  obtain ⟨happened, h⟩ := Work.run_eq ((c.turns a).run.run q) s
  rw [alone_turns] at h
  refine ⟨happened, ?_⟩
  unfold run
  rw [run_bind, h]
  rfl

end Work

end CodeGraph
