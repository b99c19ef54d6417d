import CodeGraph.Proofs.Wp
import CodeGraph.Query.Reachability

/-!
# Sights

A search looks at a vertex in one way: it asks for its value, then whether the barrier has it, then whether
the sink does. A `Sight` is what that comes to, and a vertex is visited by looking at it and reporting the
sight (`Reachability.visit_eq`). What is done with one more edge and with one more vertex that waits is
told by equations, for inductions along the edges and along the rounds.
-/

namespace CodeGraph

namespace Reachability

/-- What looking at a vertex comes to. -/
inductive Sight where
  /-- The vertex is not there or stands for nothing. -/
  | absent
  /-- Its value is among those of the barrier. -/
  | blocked (v : Value)
  /-- It may be entered, and may be what is looked for. -/
  | entered (v : Value) (reached : Bool)

namespace Sight

def value? : Sight → Option Value
  | absent => none
  | blocked v | entered v _ => some v

/-- What waits when the vertex has been visited from the end of a trail. -/
def next (id : VertexId) (trail : List Value) : Sight → Option Waiting
  | absent | blocked _ => none
  | entered v _ => some ⟨id, v :: trail⟩

/-- What is recorded when the vertex has been visited from the end of a trail. -/
def findings (start : Value) (trail : List Value) : Sight → List Finding
  | entered v true => [⟨start, v, (v :: trail).reverse⟩]
  | _ => []

end Sight

def look (a : App) (sink barrier : Column) (id : VertexId) : QueryM Sight := do
  match ← valueOf a id with
  | none => return .absent
  | some v =>
    if ← World.member barrier (.value v) then return .blocked v
    else return .entered v (← World.member sink (.value v))

/-- Records what was seen of a vertex from the end of a trail, and returns the vertex to follow. -/
def report (start : Value) (trail : List Value) (id : VertexId) (result : FlowResult) :
    Sight → QueryM (Option Waiting × FlowResult)
  | .absent | .blocked _ => return (none, result)
  | .entered v reached => do
    let result ← if reached then result.emit ⟨start, v, (v :: trail).reverse⟩ else pure result
    return (some ⟨id, v :: trail⟩, result)

variable {a : App} {sink barrier : Column} {start : Value} {trail : List Value} {id : VertexId}
  {result : FlowResult}

theorem visit_eq : visit a sink barrier start trail id result =
    look a sink barrier id >>= report start trail id result := by
  unfold visit look
  rw [bind_assoc]
  refine bind_congr fun found => ?_
  cases found with
  | none => rfl
  | some v =>
    dsimp only
    rw [bind_assoc]
    refine bind_congr fun blocked => ?_
    cases blocked with
    | true => rfl
    | false =>
      rw [if_neg Bool.false_ne_true, if_neg Bool.false_ne_true, bind_assoc]
      exact bind_congr fun reached => (pure_bind ..).symm

/-! ### Edges and rounds -/

variable {f : Reachability} {before marks : Marks} {u : Waiting} {us : List Waiting}

theorem Grown.le_first (before : Marks) : before.count + ([] : List Waiting).length ≤ before.count :=
  Nat.le_refl _

/-- The rounds before an edge has been followed. -/
def Grown.first (before : Marks) (result : FlowResult) : Grown before :=
  ⟨⟨before, [], result⟩, Grown.le_first before⟩

/-- The rounds after one more vertex has been met and visited. -/
def Grown.met {before : Marks} (r : Grown before) {id : VertexId} {marks : Marks}
    (h : r.1.marks.add? id = some marks) (x : Option Waiting × FlowResult) : Grown before :=
  ⟨⟨marks, r.1.waiting ++ x.1.toList, x.2⟩, by
    have hcount := Marks.count_of_add? h
    have hgrown := r.2
    have hlen : x.1.toList.length ≤ 1 := by cases x.1 <;> simp
    show before.count + (r.1.waiting ++ x.1.toList).length ≤ marks.count
    rw [List.length_append]
    omega⟩

theorem follow_cons_of_none {e : Edge} {es : List Edge} {r : Grown before}
    (h : r.1.marks.add? e.head = none) :
    follow a sink barrier start trail before (e :: es) r =
      follow a sink barrier start trail before es r := by
  rw [follow]
  split
  · rfl
  · next hs => rw [h] at hs; cases hs

theorem follow_cons_of_some {e : Edge} {es : List Edge} {r : Grown before}
    (h : r.1.marks.add? e.head = some marks) :
    follow a sink barrier start trail before (e :: es) r =
      visit a sink barrier start trail e.head r.1.result >>= fun x =>
        follow a sink barrier start trail before es (r.met h x) := by
  rw [follow]
  split
  · next hs => rw [h] at hs; cases hs
  · next hs =>
    rw [h] at hs
    cases hs
    refine bind_congr fun x => ?_
    obtain ⟨o, result⟩ := x
    cases o with
    | none =>
      refine congrArg _ (Subtype.ext ?_)
      show Round.mk _ _ _ = Round.mk _ (_ ++ []) _
      rw [List.append_nil]
    | some next => rfl

theorem rounds_cons_of_follows (h : f.follows u = true) :
    f.rounds a sink barrier start marks result (u :: us) = World.outEdges a u.vertex f.label >>= fun es =>
      follow a sink barrier start u.trail marks es (Grown.first marks result) >>= fun r =>
        f.rounds a sink barrier start r.1.marks r.1.result (us ++ r.1.waiting) := by
  rw [rounds, if_pos h]
  rfl

theorem rounds_cons_of_not_follows (h : ¬ f.follows u = true) :
    f.rounds a sink barrier start marks result (u :: us) =
      f.rounds a sink barrier start marks result us := by
  rw [rounds, if_neg h]

end Reachability

end CodeGraph
