import Std.Data.HashMap
import CodeGraph.Graph.Ty
import CodeGraph.Ident

/-!
# Values

A value is the semantic reading of a syntax tree: a tree whose nodes carry a `Header`. Every node
also carries a tag. While values are built and stored the tag is a `Ref`, which says which object
the node is; `Bindings` say to which vertex each object belongs, and a binding is never changed.
Under given bindings a value is seen as a `Tree Identity`, in which a bound node is known by its
vertex alone. Two nodes are the same exactly when their identities are equal.

`Tree.stream` walks a tree with an explicit stack, `Tree.preorder` by recursion. That the two agree
is `stream_eq_preorder`.
-/

namespace CodeGraph

structure Header where
  identifier : String
  name : Option String
  type : Ty
  supported : Bool
  /-- Whether the node takes the place of a value that could not be built. -/
  placeholder : Bool
  deriving DecidableEq, Repr

namespace Header

def ofKind (identifier : String) : Header := ⟨identifier, none, .invalid, true, false⟩

def unsupported (identifier : String) : Header := ⟨identifier, none, .invalid, false, false⟩

def stub (identifier : String) : Header := ⟨identifier, none, .placeholder identifier, false, true⟩

end Header

/-- A tree of headers with a tag at every node. -/
inductive Tree (ι : Type u) where
  | node (tag : ι) (header : Header) (children : List (Tree ι))

namespace Tree

variable {ι : Type u} {κ : Type v}

def tag : Tree ι → ι
  | node t _ _ => t

def header : Tree ι → Header
  | node _ h _ => h

def children : Tree ι → List (Tree ι)
  | node _ _ cs => cs

def identifier (t : Tree ι) : String := t.header.identifier

mutual

def map (f : ι → κ) : Tree ι → Tree κ
  | node t h cs => node (f t) h (mapAll f cs)

def mapAll (f : ι → κ) : List (Tree ι) → List (Tree κ)
  | [] => []
  | t :: ts => map f t :: mapAll f ts

end

mutual

/-- A tree and everything below it, each node before its children. -/
def preorder : Tree ι → List (Tree ι)
  | node t h cs => node t h cs :: preorderAll cs

def preorderAll : List (Tree ι) → List (Tree ι)
  | [] => []
  | t :: ts => preorder t ++ preorderAll ts

end

mutual

def size : Tree ι → Nat
  | node _ _ cs => sizeAll cs + 1

def sizeAll : List (Tree ι) → Nat
  | [] => 0
  | t :: ts => size t + sizeAll ts

end

theorem sizeAll_append (ts us : List (Tree ι)) :
    sizeAll (ts ++ us) = sizeAll ts + sizeAll us := by
  induction ts with
  | nil => simp [sizeAll]
  | cons t ts ih => simp [sizeAll, ih, Nat.add_assoc]

theorem preorderAll_append (ts us : List (Tree ι)) :
    preorderAll (ts ++ us) = preorderAll ts ++ preorderAll us := by
  induction ts with
  | nil => simp [preorderAll]
  | cons t ts ih => simp [preorderAll, ih]

end Tree

/-- A walk over trees that are still to be visited, the next one first. -/
structure Walk (ι : Type u) where
  stack : List (Tree ι)

namespace Walk

variable {ι : Type u}

def next? (w : Walk ι) : Option (Tree ι × Walk ι) :=
  match w.stack with
  | [] => none
  | t :: ts => some (t, ⟨t.children ++ ts⟩)

theorem sizeAll_lt_of_next? {w w' : Walk ι} {t : Tree ι} (h : w.next? = some (t, w')) :
    Tree.sizeAll w'.stack < Tree.sizeAll w.stack := by
  obtain ⟨stack⟩ := w
  cases stack with
  | nil => simp [next?] at h
  | cons u us =>
    obtain ⟨tag, header, cs⟩ := u
    simp only [next?, Tree.children, Option.some.injEq, Prod.mk.injEq] at h
    obtain ⟨-, rfl⟩ := h
    simp only [Tree.sizeAll_append, Tree.sizeAll, Tree.size]
    omega

def toList (w : Walk ι) : List (Tree ι) :=
  match h : w.next? with
  | none => []
  | some (t, w') =>
    have := sizeAll_lt_of_next? h
    t :: w'.toList
termination_by Tree.sizeAll w.stack

theorem toList_eq_preorderAll (w : Walk ι) : w.toList = Tree.preorderAll w.stack := by
  fun_induction toList w with
  | case1 w h =>
    obtain ⟨stack⟩ := w
    cases stack with
    | nil => rfl
    | cons => simp [next?] at h
  | case2 w t w' h _ ih =>
    obtain ⟨stack⟩ := w
    cases stack with
    | nil => simp [next?] at h
    | cons u us =>
      obtain ⟨tag, header, cs⟩ := u
      simp only [next?, Tree.children, Option.some.injEq, Prod.mk.injEq] at h
      obtain ⟨rfl, rfl⟩ := h
      simp [ih, Tree.preorderAll, Tree.preorder, Tree.preorderAll_append]

end Walk

namespace Tree

variable {ι : Type u}

/-- A tree and everything below it, by a walk that starts at the root. -/
def stream (t : Tree ι) : List (Tree ι) := Walk.toList ⟨[t]⟩

theorem stream_eq_preorder (t : Tree ι) : t.stream = t.preorder := by
  simp [stream, Walk.toList_eq_preorderAll, preorderAll]

end Tree

/-- Which object a node is. -/
inductive Ref where
  /-- An object that a rule hands out again and again. -/
  | shared (key : Nat)
  /-- The object built at a point of the count of all objects. -/
  | built (serial : Nat)
  deriving DecidableEq, Hashable, Repr

abbrev Value := Tree Ref

/-- What a node is known by. -/
inductive Identity where
  /-- A bound node is known by its vertex. -/
  | vertex (id : VertexId)
  /-- A node that is not bound is known only as itself. -/
  | unbound (ref : Ref)
  deriving DecidableEq, Repr

/-- A value as it is seen under given bindings. -/
abbrev Seen := Tree Identity

namespace Identity

def vertex? : Identity → Option VertexId
  | vertex id => some id
  | unbound _ => none

end Identity

/-- The vertices that objects belong to, and the count of the objects built so far. -/
structure Bindings where
  serial : Nat
  vertexOf : Std.HashMap Ref VertexId

namespace Bindings

def empty : Bindings := ⟨0, ∅⟩

def vertex? (b : Bindings) (v : Value) : Option VertexId := b.vertexOf[v.tag]?

def identity (b : Bindings) (r : Ref) : Identity :=
  match b.vertexOf[r]? with
  | some id => .vertex id
  | none => .unbound r

/-- A value as it is seen. -/
def view (b : Bindings) (v : Value) : Seen := v.map b.identity

/-- Binds an object to a vertex, unless it is bound already. -/
def bind (b : Bindings) (id : VertexId) (r : Ref) : Bindings :=
  { b with vertexOf := b.vertexOf.insertIfNew r id }

/-- Binds every node of a value that is not bound yet. -/
def bindAll (b : Bindings) (id : VertexId) (v : Value) : Bindings :=
  v.stream.foldl (fun b t => b.bind id t.tag) b

end Bindings

/-- Whether two values are the same object or belong to the same vertex. -/
def Seen.same (a b : Seen) : Bool := a.tag = b.tag

end CodeGraph
