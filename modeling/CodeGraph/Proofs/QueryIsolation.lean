import CodeGraph.Engine.Runner
import CodeGraph.Proofs.TwinStages

/-!
# Queries that share a registry

An engine runs its queries one after another in one world, so a query finds what those before it have
registered, bound and left behind, whether they failed or not. When the registry forgets nothing that
makes no difference: everything registered is what its vertex stands for, so the query comes to what it
comes to in a world of its own. `Ground.wp₂_outcome` is that for one query, and `submit_isolated` for a
list of queries.
-/

namespace CodeGraph

namespace Ground
variable {g : Ground} {p : Context × Context} {v v' : Value} {t t' : Table} {c c' : Cell Ref}

/-! ### Rendering -/

theorem Twins.wp₂_nodeOf? (h : g.Twins p v v') (hp : g.course.Step p p) (hl : g.lasting) :
    wp₂ g.course (Context.nodeOf? (.value v)) (Context.nodeOf? (.value v'))
      (fun n n' _ => n = n' ∧ n.isSome = true) p := by
  obtain ⟨id, r, hread, hv, hv', hreg⟩ := h
  obtain ⟨hc, hc'⟩ := hreg hl
  obtain ⟨rfl, howned⟩ := Catalog.read_eq_some hread
  refine wp₂_of_wp
    (Context.wp_nodeOf?_value (howned.owns hv) (hp.1.ready.nodeAt?_of_contains hread hc))
    (Context.wp_nodeOf?_value (howned.owns hv') (hp.2.ready.nodeAt?_of_contains hread hc'))
    fun n c n' c' h h' => ?_
  obtain ⟨rfl, ha⟩ := h
  obtain ⟨rfl, ha'⟩ := h'
  exact ⟨⟨hp.1.ready.alike ha, hp.2.ready.alike ha'⟩, rfl, rfl⟩

theorem wp₂_place (h : g.Twins p v v') (hp : g.course.Step p p) (hl : g.lasting) :
    wp₂ g.course (FlowPath.place v) (FlowPath.place v') (fun s s' _ => s = s') p := by
  unfold FlowPath.place
  refine wp₂_bind (h.wp₂_nodeOf? hp hl) fun n n' q hq hn => ?_
  obtain ⟨rfl, -⟩ := hn
  cases n <;> exact wp₂_pure (g.course.stay hq) rfl

theorem wp₂_describe {path path' : FlowPath Ref} (h : List.Forall₂ (g.Twins p) path path')
    (hp : g.course.Step p p) (hl : g.lasting) :
    wp₂ g.course path.describe path'.describe (fun s s' _ => s = s') p := by
  unfold FlowPath.describe
  refine wp₂_bind (wp₂_mapM (V := fun v v' q => g.Twins q v v') (W := fun s s' _ => s = s')
    (fun _ _ _ _ hq hv => hv.step hq) (fun _ _ _ _ _ hs => hs)
    (fun _ _ _ hq hv => wp₂_place hv (g.course.stay hq) hl) hp h) fun ss ss' q hq hs => ?_
  exact wp₂_pure (g.course.stay hq) (congrArg _ (List.forall₂_eq_eq_eq ▸ hs))

theorem wp₂_render (h : c.Paired (g.Twins p) c') (hp : g.course.Step p p) (hl : g.lasting) :
    wp₂ g.course c.render c'.render (fun s s' _ => s = s') p := by
  cases h with
  | null => exact wp₂_pure hp rfl
  | text s => exact wp₂_pure hp rfl
  | path h => exact wp₂_describe h hp hl
  | value h =>
    refine wp₂_bind (h.wp₂_nodeOf? hp hl) fun n n' q hq hn => ?_
    obtain ⟨rfl, hsome⟩ := hn
    obtain ⟨n, rfl⟩ := Option.isSome_iff_exists.1 hsome
    exact wp₂_pure (g.course.stay hq) rfl

theorem wpE₂_addRow (ht : t.Paired (g.Twins p) t') (hp : g.course.Step p p) (hl : g.lasting)
    (view : TableView) (i : Nat) :
    wpE₂ g.course (TableView.addRow t view i) (TableView.addRow t' view i) (fun u u' _ => u = u') p := by
  unfold TableView.addRow
  refine wpE₂_bind (wpE₂_except hp (ht.rowCells i)) fun cells cells' q _ hcells => ?_
  obtain ⟨rfl, hcells⟩ := hcells
  refine wpE₂_bind (wpE₂_lift (wp₂_mapM (V := fun c c' q => c.Paired (g.Twins q) c')
    (W := fun s s' _ => s = s') (fun _ _ _ _ hq hc => hc.mono fun _ _ h => h.step hq)
    (fun _ _ _ _ _ hs => hs) (fun _ _ _ hq hc => wp₂_render hc (g.course.stay hq) hl) hp hcells))
    fun texts texts' q' hq hs => ?_
  have hs : texts = texts' := List.forall₂_eq_eq_eq ▸ hs
  subst hs
  exact wpE₂_mono (wpE₂_except (g.course.stay hq) (agree_eq_iff.2 rfl)) fun _ _ _ _ h => h.2

theorem wpE₂_ofTable (ht : t.Paired (g.Twins p) t') (hp : g.course.Step p p) (hl : g.lasting) :
    wpE₂ g.course (TableView.ofTable t) (TableView.ofTable t') (fun u u' _ => u = u') p := by
  unfold TableView.ofTable
  rw [ht.rowCount_eq, ht.headers_eq]
  refine wpE₂_foldlM (V := fun i j _ => i = j) (fun _ _ _ _ _ h => h) (fun u u' i j q hq hi hu => ?_)
    hp (List.forall₂_eq_eq_eq ▸ rfl) rfl
  subst hi
  subst hu
  exact wpE₂_addRow (ht.mono fun _ _ h => h.step hq) (g.course.stay hq) hl u i

theorem wpE₂_renderQuery {p : (Query × World) × (Query × World)} (hp : g.stages.Step p p)
    (hl : g.lasting) (style : OutputStyle) :
    wpE₂ g.course.onGraph (p.1.1.render style) (p.2.1.render style) (fun s s' _ => s = s')
      (p.1.2, p.2.2) := by
  have hresult : Agree (Table.Paired (g.TwinsIn p)) p.1.1.resultTable p.2.1.resultTable := by
    have hrel := hp.2.result
    unfold Query.resultTable
    generalize p.1.1.result = x, p.2.1.result = y at hrel ⊢
    cases hrel with
    | none => rfl
    | some h => exact h
  unfold Query.render Query.output
  refine wpE₂_bind (R := fun u u' _ => u = u') ?_ fun u u' q hq hu => ?_
  · refine wpE₂_bind (wpE₂_except hp.1 hresult) fun t t' q _ ht => ?_
    obtain ⟨rfl, ht⟩ := ht
    exact wpE₂_resolving (wpE₂_ofTable ht hp.1 hl)
  · subst hu
    exact wpE₂_pure (g.course.onGraph.stay hq) rfl

end Ground

/-! ### Scripts -/

/-- What a query does: steps, each of which may depend on what those before it have come to. -/
inductive Script where
  | done
  | fail (e : Error)
  | step (s : Query.Step) (next : Except Error Unit → Script)

namespace Script

/-- The outcome of a stage. What a failed stage has changed stays changed. -/
def outcome (m : StageM Unit) : StageM (Except Error Unit) := ExceptT.lift m.run

def body (a : App) : Script → StageM Unit
  | done => pure ()
  | fail e => throw e
  | step s next => do body a (next (← outcome (s.run a)))

/-- The steps in order, up to the first that fails. -/
def ofSteps : List Query.Step → Script
  | [] => done
  | s :: steps => step s fun
    | .ok _ => ofSteps steps
    | .error e => fail e

theorem body_ofSteps (a : App) (steps : List Query.Step) :
    (ofSteps steps).body a = steps.forM fun s => s.run a := by
  induction steps with
  | nil => rfl
  | cons s steps ih =>
    show outcome (s.run a) >>= _ = s.run a >>= fun _ => steps.forM fun s => s.run a
    rw [← ih]
    refine ExceptT.ext ?_
    rw [ExceptT.run_bind, ExceptT.run_bind, outcome, ExceptT.run_lift, bind_map_left]
    refine bind_congr fun ran => ?_
    cases ran <;> rfl

end Script

structure Task where
  name : String
  script : Script
  milliseconds : Nat

namespace Task

def query (a : App) (x : Task) : Queryable := ⟨x.name, x.script.body a⟩

def result (a : App) (style : OutputStyle) (w : World) (x : Task) : QueryResult :=
  Engine.resultOf x.name x.milliseconds ((Engine.outcome style (x.query a)).run.run w).1

end Task

namespace Ground
variable {g : Ground} {a a' : App}

theorem wpS₂_body (ha : g.Serves a a') (hl : g.lasting) (x : Script)
    {p : (Query × World) × (Query × World)} (hp : g.stages.Step p p) :
    wpS₂ g.stages (x.body a) (x.body a') (fun _ _ _ => True) p := by
  induction x generalizing p with
  | done => exact wpS₂_pure hp trivial
  | fail e => exact ⟨hp, rfl⟩
  | step s next ih =>
    have hs := wpS₂_step ha hp (s := s) (Or.inr hl)
    refine wpS₂_bind (R := fun x x' _ => x = x') ⟨hs.1, agree_eq_iff.1 (hs.2.mono fun _ _ _ => rfl)⟩
      fun x x' q hq hx => ?_
    subst hx
    exact ih x (g.stages.stay hq)

theorem wp₂_outcome (ha : g.Serves a a') (hl : g.lasting) (x : Task) (style : OutputStyle)
    {w w' : World} (h : g.Ready w.graph) (h' : g.Ready w'.graph) :
    wp₂ g.course.onGraph (Engine.outcome style (x.query a)).run (Engine.outcome style (x.query a')).run
      (fun came came' _ => came = came') (w, w') := by
  have hbody := wpS₂_body ha hl x.script (step_empty h h')
  have hran : wp₂ g.course.onGraph (Query.empty.run (x.script.body a))
      (Query.empty.run (x.script.body a'))
      (fun r r' q => g.stages.Step ((.empty, w), (.empty, w')) ((r.2, q.1), (r'.2, q.2)) ∧
        Agree (fun _ _ => True) r.1 r'.1) (w, w') := ⟨hbody.1.1, hbody.1, hbody.2⟩
  refine wp₂_bind hran fun r r' q hq hr => ?_
  obtain ⟨ran, state⟩ := r
  obtain ⟨ran', state'⟩ := r'
  obtain ⟨hstep, hran⟩ := hr
  cases ran <;> cases ran'
  · exact wp₂_pure (g.course.onGraph.stay hq) (congrArg Except.error hran)
  · exact hran.elim
  · exact hran.elim
  · exact wp₂_mono (wpE₂_renderQuery (g.stages.stay hstep) hl style) fun _ _ _ _ h =>
      agree_eq_iff.1 h

end Ground

/-! ### Engines -/

namespace Engine
variable {α β : Type} {e e' : Engine} {q : Queryable} {w w' : World} {came : Except Error String}

theorem run_bind {m : EngineM α} {x : α} (f : α → EngineM β)
    (h : (m.run.run e).run w = ((.ok x, e'), w')) :
    ((m >>= f).run.run e).run w = ((f x).run.run e').run w' := by
  rw [ExceptT.run_bind, StateT.run_bind, StateT.run_bind, h]
  rfl

/-- The engine after a query that has taken a time, with the record of it written. -/
def wrote (e : Engine) (milliseconds : Nat) (r : QueryResult) : Engine :=
  { e with
    executed := e.executed + 1
    total := e.total + milliseconds
    sink := ⟨e.sink.written ++ (e.formatter.record r ++ "\n"), false⟩ }

theorem name_resultOf (name : String) (milliseconds : Nat) (came : Except Error String) :
    (resultOf name milliseconds came).name = name := by
  cases came <;> rfl

theorem resultOf_untimed (name : String) (milliseconds other : Nat) (came : Except Error String) :
    (resultOf name milliseconds came).result = (resultOf name other came).result ∧
      (resultOf name milliseconds came).failed = (resultOf name other came).failed := by
  cases came <;> exact ⟨rfl, rfl⟩

theorem run_execute (hs : e.sink.broken = false) (milliseconds : Nat)
    (h : (outcome e.style q).run.run w = (came, w')) :
    ∃ w'', ((execute q milliseconds).run.run e).run w =
        ((.ok (resultOf q.name milliseconds came),
          e.wrote milliseconds (resultOf q.name milliseconds came)), w'') ∧
      w''.graph.language = w'.graph.language ∧ w''.graph.bindings = w'.graph.bindings ∧
      w''.graph.registry = w'.graph.registry := by
  have hwrite : ∀ line, e.sink.writeLine line = .ok ⟨e.sink.written ++ (line ++ "\n"), false⟩ := by
    intro line
    unfold Sink.writeLine
    rw [hs, String.append_assoc]
    rfl
  have hran : ((ofWorldM (outcome e.style q).run).run.run e).run w = ((.ok came, e), w') :=
    congrArg (fun x : Except Error String × World => ((Except.ok x.1, e), x.2)) h
  unfold execute
  rw [run_bind _ (rfl : (state.run.run e).run w = ((.ok e, e), w)), run_bind _ hran]
  cases came with
  | ok text =>
    refine ⟨w', ?_, rfl, rfl, rfl⟩
    rw [if_neg (show ¬ (Except.ok text : Except Error String).toOption.isNone = true from
      Bool.false_ne_true), run_bind _ rfl, hwrite]
    rfl
  | error err =>
    refine ⟨((World.onGraph (Context.notify .queryFailed)).run w').2, ?_, rfl, rfl, rfl⟩
    rw [if_pos (show (Except.error err : Except Error String).toOption.isNone = true from rfl),
      run_bind _ rfl, run_bind _ rfl, hwrite]
    rfl

end Engine

def recordLines (k : FormatterKind) (rs : List QueryResult) : String :=
  String.join (rs.map fun r => k.record r ++ "\n")

theorem recordLines_cons (k : FormatterKind) (r : QueryResult) (rs : List QueryResult) :
    recordLines k (r :: rs) = k.record r ++ "\n" ++ recordLines k rs := by
  unfold recordLines
  rw [List.map_cons, String.join_cons]

namespace Ground
variable {g : Ground} {a : App} {c c' : Context} {w₀ : World}

theorem Ready.of_registry_eq (h : g.Ready c) (hl : c'.language = c.language)
    (hb : c'.bindings = c.bindings) (hr : c'.registry = c.registry) : g.Ready c' := by
  have hg : c.Grows c' := .of_registry_eq hl hb hr
  exact (h.moves hg (h.faithful.of_entries hg fun _ _ hx => by rwa [hr] at hx)).ready

/-- Queries that run one after another in one world come to what they come to each in another. -/
theorem exists_submit (ha : g.Serves a a) (hl : g.lasting) (h₀ : g.Ready w₀.graph) (xs : List Task)
    {e : Engine} (hs : e.sink.broken = false) {w : World} (hw : g.Ready w.graph) :
    ∃ e' w', ((Engine.submit (xs.map fun x => (x.query a, x.milliseconds))).run.run e).run w =
        ((.ok (xs.map (Task.result a e.style w₀)), e'), w') ∧
      e'.sink.written = e.sink.written ++ recordLines e.formatter (xs.map (Task.result a e.style w₀)) := by
  induction xs generalizing e w with
  | nil => exact ⟨e, w, rfl, (String.append_empty).symm⟩
  | cons x xs ih =>
    have hout := wp₂_outcome ha hl x e.style hw h₀
    unfold wp₂ wp at hout
    rcases hcame : (Engine.outcome e.style (x.query a)).run.run w with ⟨came, w₁⟩
    rw [hcame] at hout
    obtain ⟨hstep, hsame⟩ := hout
    have hr : Engine.resultOf (x.query a).name x.milliseconds came = x.result a e.style w₀ :=
      congrArg (Engine.resultOf x.name x.milliseconds) hsame
    obtain ⟨w₂, hrun, hlang, hbind, hreg⟩ := Engine.run_execute hs x.milliseconds hcame
    rw [hr] at hrun
    -- whatever the query has come to, it leaves a world on the ground to the next
    have hw₂ : g.Ready w₂.graph := .of_registry_eq hstep.1.ready hlang hbind hreg
    obtain ⟨e', w', hrest, hwritten⟩ := ih (e := e.wrote x.milliseconds (x.result a e.style w₀)) rfl hw₂
    refine ⟨e', w', ?_, ?_⟩
    · show ((Engine.submit ((x.query a, x.milliseconds) :: _)).run.run e).run w = _
      unfold Engine.submit at hrest ⊢
      rw [List.mapM_cons, Engine.run_bind _ hrun, Engine.run_bind _ hrest]
      rfl
    · rw [hwritten, List.map_cons, recordLines_cons, ← String.append_assoc]
      rfl

end Ground

namespace Engine

/-- Queries on a graph in memory, run one after another on an output that works, with a registry that
forgets nothing: there is one result for each query and one record for each result, in order, and a
result has the text of, and fails like, the result that the query has when it is run by itself in a
world in which nothing has happened. -/
theorem submit_isolated {o : DatabaseOptions} {d : GraphDump} {s : InMemoryStore} {a : App}
    {l : Language} {e : Engine} (ha : App.new o s.toStore = .ok a) (hd : InMemoryStore.Holds d s)
    (hl : l.Fresh) (hcap : a.options.cache.capacity = none) (hs : e.sink.broken = false)
    (xs : List Task) :
    ∃ results e' w',
      ((submit (xs.map fun x => (x.query a, x.milliseconds))).run.run e).run (.new a l) =
        ((.ok results, e'), w') ∧
      e'.sink.written = e.sink.written ++ recordLines e.formatter results ∧
      List.Forall₂ (fun x r => r.name = x.name ∧ ∀ formatter milliseconds, ∃ r₀ e₀ w₀,
        ((execute (x.query a) milliseconds).run.run (.new e.style formatter .empty)).run (.new a l) =
          ((.ok r₀, e₀), w₀) ∧
        r.result = r₀.result ∧ r.failed = r₀.failed) xs results := by
  have hready : (Ground.inMemory d l True).Ready (World.new a l).graph :=
    .of_blank (Context.blank_new l _) hl fun _ => by
      show a.options.cache.capacity.filter _ = none
      rw [hcap]
      rfl
  obtain ⟨e', w', hrun, hwritten⟩ := Ground.exists_submit (g := .inMemory d l True)
    (Ground.serves_inMemory hd ha ha) trivial hready xs hs hready
  refine ⟨_, e', w', hrun, hwritten, List.forall₂_map_right_iff.2 (List.forall₂_same.2 fun x _ => ?_)⟩
  refine ⟨name_resultOf .., fun formatter milliseconds => ?_⟩
  rcases hcame : (outcome e.style (x.query a)).run.run (.new a l) with ⟨came, w₁⟩
  obtain ⟨w₀, hrun₀, -⟩ := run_execute (e := .new e.style formatter .empty) rfl milliseconds hcame
  refine ⟨_, _, w₀, hrun₀, ?_⟩
  unfold Task.result
  rw [hcame]
  exact resultOf_untimed ..

def failingThenFiles : List Task :=
  [⟨"broken", .ofSteps [.select ["a"]], 3⟩,
    ⟨"files", .ofSteps [.source ⟨"a", .data, .node fun _ => true⟩, .select ["a"]], 5⟩]

theorem submit_isolated_failingThenFiles :
    ∃ s results e' w', InMemoryStore.Holds Query.mutualFiles s ∧
      ((submit (failingThenFiles.map fun x => (x.query ⟨.default, s.toStore⟩, x.milliseconds))).run.run
        (.new .markdown .plain .empty)).run (.new ⟨.default, s.toStore⟩ ⟨"plain", [], []⟩) =
          ((.ok results, e'), w') ∧
      results.map (·.name) = ["broken", "files"] := by
  obtain ⟨s, hs⟩ := InMemoryStore.exists_holds (d := Query.mutualFiles) (by decide) (by decide)
  have ha : App.new .default s.toStore = .ok ⟨.default, s.toStore⟩ := rfl
  obtain ⟨results, e', w', hrun, -, hresults⟩ := submit_isolated (l := ⟨"plain", [], []⟩)
    (e := .new .markdown .plain .empty) ha hs (fun _ h => absurd h List.not_mem_nil) rfl rfl
    failingThenFiles
  refine ⟨s, results, e', w', hs, hrun, ?_⟩
  rw [← map_eq_of_forall₂ hresults fun _ _ h => h.1.symm]
  rfl

end Engine

end CodeGraph
