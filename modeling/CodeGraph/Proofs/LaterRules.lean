import CodeGraph.Graph.Factory

/-!
# Rules that come later

Which rule is tried for a tree is decided by the first that matches, so a tree for which there is a rule is
treated as before when rules are added after it. A run of a construction asks for trees at every depth, of
the document and of what the rules make up; if there is a rule for each of them, the run is the same with
the later rules (`Factory.Runs.withLater`), and as runs are unique nothing else can be built
(`Factory.later_rules_decide_nothing`). For the rules of a language the run is the recursion
`Language.build` (`Language.builds_factory`).
-/

namespace CodeGraph

namespace FactoryRule
variable {α : Type} {rules : List (FactoryRule α)} {rule : FactoryRule α} {a : Ast}

theorem first_of_find? (h : rules.find? (·.types.isFor a.identifier) = some rule) :
    first rules a = rule.construction a := by
  rw [first, h]

/-- If there is a rule for a tree, rules after it are not tried. -/
theorem first_append (h : ∃ rule ∈ rules, rule.types.isFor a.identifier) (later : List (FactoryRule α)) :
    first (rules ++ later) a = first rules a := by
  obtain ⟨rule, hfind⟩ := Option.isSome_iff_exists.1 (List.find?_isSome.2 h)
  have hfind' : (rules ++ later).find? (·.types.isFor a.identifier) = some rule := by
    rw [List.find?_append, hfind, Option.some_or]
  rw [first_of_find? hfind, first_of_find? hfind']

end FactoryRule

namespace Factory
variable {α : Type} {f : Factory} {x : Construction α} {a : Ast} {n m k : Nat} {asked asked' : List Ast}

def HasRuleFor (f : Factory) (a : Ast) : Prop := ∃ rule ∈ f.valueRules, rule.types.isFor a.identifier

/-! ### Runs -/

theorem Runs.unique {result result' : Option α} (h : f.Runs x n asked result m)
    (h' : f.Runs x n asked' result' k) : asked' = asked ∧ result' = result ∧ k = m := by
  induction h generalizing asked' k with
  | give =>
    cases h'
    exact ⟨rfl, rfl, rfl⟩
  | node _ ih =>
    cases h' with
    | node hnext => exact ih hnext
  | value _ _ ihrule ihnext =>
    cases h' with
    | value hrule hnext =>
      obtain ⟨rfl, rfl, rfl⟩ := ihrule hrule
      obtain ⟨rfl, rfl, rfl⟩ := ihnext hnext
      exact ⟨rfl, rfl, rfl⟩
  | type _ _ ihrule ihnext =>
    cases h' with
    | type hrule hnext =>
      obtain ⟨rfl, rfl, rfl⟩ := ihrule hrule
      obtain ⟨rfl, rfl, rfl⟩ := ihnext hnext
      exact ⟨rfl, rfl, rfl⟩

/-- A run goes on as it did when rules are added after those that were there for all it asks for. -/
theorem Runs.withLater {result : Option α} (h : f.Runs x n asked result m)
    (hrules : ∀ b ∈ asked, f.HasRuleFor b) (later : List (FactoryRule Value)) :
    (f.withLater later).Runs x n asked result m := by
  induction h with
  | give result n => exact .give result n
  | node _ ih => exact .node (ih hrules)
  | @value _ a _ _ _ _ asked _ _ _ _ _ ihrule ihnext =>
    -- the tree is among those asked for, and so are those that its rule asks for
    have hfirst := FactoryRule.first_append (hrules a (.head _)) later
    refine .value ?_ (ihnext fun b hb => hrules b (List.mem_append_right (a :: asked) hb))
    rw [Factory.withLater, hfirst]
    exact ihrule fun b hb => hrules b (List.mem_append_left _ (.tail a hb))
  | type _ _ ihrule ihnext =>
    exact .type (ihrule fun b hb => hrules b (List.mem_append_left _ hb))
      (ihnext fun b hb => hrules b (List.mem_append_right _ hb))

/-! ### Values -/

theorem Builds.unique {v v' : Value} (h : f.Builds a n asked v m) (h' : f.Builds a n asked' v' k) :
    asked' = asked ∧ v' = v ∧ k = m := by
  obtain ⟨_, _, _, hrun, rfl, hsettle⟩ := h
  obtain ⟨_, _, _, hrun', rfl, hsettle'⟩ := h'
  obtain ⟨rfl, rfl, rfl⟩ := hrun.unique hrun'
  obtain ⟨rfl, rfl⟩ := Prod.mk.inj (hsettle'.trans hsettle.symm)
  exact ⟨rfl, rfl, rfl⟩

theorem Builds.withLater {v : Value} (h : f.Builds a n asked v m) (hrules : ∀ b ∈ asked, f.HasRuleFor b)
    (later : List (FactoryRule Value)) : (f.withLater later).Builds a n asked v m := by
  obtain ⟨asked, given, k, hrun, rfl, hsettle⟩ := h
  refine ⟨asked, given, k, ?_, rfl, hsettle⟩
  have hfirst := FactoryRule.first_append (hrules a (.head _)) later
  rw [Factory.withLater, hfirst]
  exact hrun.withLater (fun b hb => hrules b (.tail a hb)) later

theorem hasRuleFor_of_find? {rule : FactoryRule Value}
    (hfind : f.valueRules.find? (·.types.isFor a.identifier) = some rule) : f.HasRuleFor a :=
  ⟨rule, List.mem_of_find?_eq_some hfind, (List.find?_eq_some_iff_append.1 hfind).1⟩

theorem builds_stub {rule : FactoryRule Value}
    (hfind : f.valueRules.find? (·.types.isFor a.identifier) = some rule)
    (h : f.Runs (rule.construction a) n asked none m) :
    f.Builds a n (a :: asked) (.node (.built m) (.stub a.identifier) []) (m + 1) :=
  ⟨asked, none, m, FactoryRule.first_of_find? hfind ▸ h, rfl, rfl⟩

theorem Builds.runs_value {result : Option α} {next : Value → Construction α} {v : Value}
    (h : f.Builds a n asked v k) (hnext : f.Runs (next v) k asked' result m) :
    f.Runs (.value a next) n (asked ++ asked') result m := by
  obtain ⟨asked, given, k', hrun, rfl, hsettle⟩ := h
  obtain ⟨rfl, rfl⟩ := Prod.mk.inj hsettle
  exact .value hrun hnext

end Factory

/-! ### The factory of a language -/

namespace Language
variable {l : Language} {a : Ast}

def HasRuleFor (l : Language) (a : Ast) : Prop := ∃ rule ∈ l.valueRules, rule.types.isFor a.identifier

theorem HasRuleFor.factory (h : l.HasRuleFor a) : l.factory.HasRuleFor a := by
  obtain ⟨rule, hmem, hfor⟩ := h
  exact ⟨rule.program l.typeOf, List.mem_map_of_mem hmem, hfor⟩

theorem factory_withLater (l : Language) (later : List ValueRule) :
    (l.withLater later).factory = l.factory.withLater (later.map (·.program l.typeOf)) := by
  simp only [factory, withLater, Factory.withLater, List.map_append]
  rfl

theorem first_factory (l : Language) (a : Ast) :
    FactoryRule.first l.factory.valueRules a = Recipe.construction (l.recipe? a) := by
  have hfind : l.factory.valueRules.find? (·.types.isFor a.identifier) =
      (l.valueRules.find? (·.types.isFor a.identifier)).map (·.program l.typeOf) := List.find?_map ..
  rw [FactoryRule.first, hfind, recipe?]
  cases l.valueRules.find? (·.types.isFor a.identifier) <;> rfl

theorem runs_values {f : Factory} {next : List Value → Construction Value} {parts : List a.Part} {n m : Nat}
    {result : Option Value}
    (hparts : ∀ (p : a.Part) n, f.Builds p.1 n (l.asked p.1) ((l.build p.1).run n).1 ((l.build p.1).run n).2)
    (hnext : f.Runs (next ((parts.mapM fun p => l.build p.1).run n).1)
      ((parts.mapM fun p => l.build p.1).run n).2 [] result m) :
    f.Runs (.values (parts.map (·.1)) next) n (parts.flatMap fun p => l.asked p.1) result m := by
  induction parts generalizing n next with
  | nil => exact hnext
  | cons p parts ih =>
    rw [List.mapM_cons] at hnext
    exact (hparts p n).runs_value (ih hnext)

/-- The recursion of a language is the run of its factory. -/
theorem builds_factory (l : Language) (a : Ast) (n : Nat) :
    l.factory.Builds a n (l.asked a) ((l.build a).run n).1 ((l.build a).run n).2 := by
  induction a using Language.build.induct l generalizing n with
  | case1 a v hr =>
    refine ⟨[], some v, n, ?_, ?_, ?_⟩
    · rw [first_factory, hr]
      exact .give (some v) n
    · rw [asked, hr]
    · rw [build, hr]
      rfl
  | case2 a header parts hr ih =>
    let children := (parts.mapM fun p => l.build p.1).run n
    refine ⟨parts.flatMap fun p => l.asked p.1, some (.node (.built children.2) header children.1),
      children.2 + 1, ?_, ?_, ?_⟩
    · rw [first_factory, hr]
      exact runs_values ih (.node (.give _ _))
    · rw [asked, hr]
    · rw [build, hr]
      rfl
  | case3 a hr =>
    refine ⟨[], none, n, ?_, ?_, ?_⟩
    · rw [first_factory, hr]
      exact .give none n
    · rw [asked, hr]
    · rw [build, hr]
      rfl

theorem build_withLater (h : ∀ b ∈ l.asked a, l.HasRuleFor b) (later : List ValueRule) :
    (l.withLater later).build a = l.build a := by
  funext n
  have hbuilds := (l.builds_factory a n).withLater (fun b hb => (h b hb).factory)
    (later.map (·.program l.typeOf))
  rw [← factory_withLater] at hbuilds
  obtain ⟨-, hv, hm⟩ := hbuilds.unique ((l.withLater later).builds_factory a n)
  exact Prod.ext hv hm

end Language

/-- Rules that are added after the others decide nothing, at any depth, if one of the others is there for
each tree whose value is asked for: the same value is built and no other can be, also where the first rule
for a tree gives nothing and a later one would match. The recursion of a language is the run of its
factory, and it stays the same. -/
theorem Factory.later_rules_decide_nothing :
    (∀ (f : Factory) (later : List (FactoryRule Value)) (a : Ast) (n : Nat) (asked : List Ast) (v : Value)
        (m : Nat), f.Builds a n asked v m → (∀ b ∈ asked, f.HasRuleFor b) →
      ∀ asked' v' m', (f.withLater later).Builds a n asked' v' m' ↔ asked' = asked ∧ v' = v ∧ m' = m) ∧
    (∀ (f : Factory) (later : List (FactoryRule Value)) (rule : FactoryRule Value) (a : Ast) (n : Nat)
        (asked : List Ast) (m : Nat), f.valueRules.find? (·.types.isFor a.identifier) = some rule →
      f.Runs (rule.construction a) n asked none m → (∀ b ∈ asked, f.HasRuleFor b) →
      (f.withLater later).Builds a n (a :: asked) (.node (.built m) (.stub a.identifier) []) (m + 1)) ∧
    ∀ (l : Language) (later : List ValueRule) (a : Ast),
      (∀ n, l.factory.Builds a n (l.asked a) ((l.build a).run n).1 ((l.build a).run n).2) ∧
      ((∀ b ∈ l.asked a, l.HasRuleFor b) → (l.withLater later).build a = l.build a) := by
  refine ⟨fun f later a n asked v m h hrules asked' v' m' => ?_,
    fun f later rule a n asked m hfind hrun hrules => ?_,
    fun l later a => ⟨l.builds_factory a, fun hrules => Language.build_withLater hrules later⟩⟩
  · have hlater := h.withLater hrules later
    constructor
    · exact hlater.unique
    · rintro ⟨rfl, rfl, rfl⟩
      exact hlater
  · refine (builds_stub hfind hrun).withLater (fun b hb => ?_) later
    rcases List.mem_cons.1 hb with rfl | hb
    · exact hasRuleFor_of_find? hfind
    · exact hrules b hb

def lambdaTree : Ast := ⟨.obj [("_identifier", .str "Lambda")]⟩

def nameTree : Ast := ⟨.obj [("_type", .str "Name")]⟩

def callTree : Ast :=
  ⟨.obj [("_identifier", .str "Call"), ("func", nameTree.json), ("args", .arr [lambdaTree.json, .null])]⟩

/-- Calls have their parts, names have none, and lambdas are given no value. -/
def callLanguage : Language where
  name := "calls"
  valueRules := [
    ⟨.one "Call", Outline.recipe ⟨none, ["func"], ["args"], [], none, none⟩⟩,
    ⟨.many ["Name", "Attribute"], fun _ _ => some (.fresh (.ofKind "first") [])⟩,
    ⟨.one "Lambda", fun _ _ => none⟩]
  typeRules := []

def lateRule : ValueRule := ⟨.any, fun _ _ => some (.fresh (.ofKind "late") [])⟩

theorem builds_callTree (n : Nat) :
    callLanguage.factory.Builds callTree n [callTree, nameTree, lambdaTree] (.node (.built (n + 2))
      (.ofKind "Call") [.node (.built n) (.ofKind "first") [], .node (.built (n + 1)) (.stub "Lambda") []])
      (n + 3) := by
  have hname : callLanguage.factory.Builds nameTree n [nameTree] (.node (.built n) (.ofKind "first") [])
      (n + 1) := ⟨[], some _, n + 1, .node (.give _ _), rfl, rfl⟩
  have hlambda (n : Nat) : callLanguage.factory.Builds lambdaTree n [lambdaTree]
      (.node (.built n) (.stub "Lambda") []) (n + 1) := ⟨[], none, n, .give none n, rfl, rfl⟩
  exact ⟨_, some _, n + 3, hname.runs_value ((hlambda _).runs_value (.node (.give _ _))), rfl, rfl⟩

/-- The late rule is for each tree of the call, the lambda included. -/
theorem Factory.later_rules_decide_nothing_call :
    callLanguage.asked callTree = [callTree, nameTree, lambdaTree] ∧
      (∀ b ∈ callLanguage.asked callTree, callLanguage.HasRuleFor b ∧ lateRule.types.isFor b.identifier) ∧
      ((callLanguage.withLater [lateRule]).build callTree).run 0 = (.node (.built 2) (.ofKind "Call")
        [.node (.built 0) (.ofKind "first") [], .node (.built 1) (.stub "Lambda") []], 3) ∧
      (∀ asked v m, (callLanguage.factory.withLater [lateRule.program callLanguage.typeOf]).Builds callTree 0
        asked v m ↔ asked = callLanguage.asked callTree ∧ v = ((callLanguage.build callTree).run 0).1 ∧
          m = ((callLanguage.build callTree).run 0).2) ∧
      (callLanguage.factory.withLater [lateRule.program callLanguage.typeOf]).Builds lambdaTree 0 [lambdaTree]
        (.node (.built 0) (.stub "Lambda") []) 1 := by
  obtain ⟨hbuilds, hstub, hlanguage⟩ := later_rules_decide_nothing
  obtain ⟨hfactory, hbuild⟩ := hlanguage callLanguage [lateRule] callTree
  obtain ⟨hasked, hv, hm⟩ := (builds_callTree 0).unique (hfactory 0)
  have hrules : ∀ b ∈ callLanguage.asked callTree, callLanguage.HasRuleFor b := by
    rw [hasked, List.forall_mem_cons, List.forall_mem_cons, List.forall_mem_singleton]
    exact ⟨⟨_, .head _, rfl⟩, ⟨_, .tail _ (.head _), rfl⟩, ⟨_, .tail _ (.tail _ (.head _)), rfl⟩⟩
  refine ⟨hasked, fun b hb => ⟨hrules b hb, rfl⟩, ?_, ?_, ?_⟩
  · rw [hbuild hrules]
    exact Prod.ext hv hm
  · exact hbuilds _ _ _ _ _ _ _ (hfactory 0) fun b hb => (hrules b hb).factory
  · refine hstub _ _ ⟨.one "Lambda", fun _ => .give none⟩ lambdaTree 0 [] 0 rfl (.give none 0) ?_
    exact List.forall_mem_nil _

end CodeGraph
