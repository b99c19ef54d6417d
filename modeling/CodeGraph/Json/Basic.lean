import CodeGraph.Dictionary

/-!
# Documents

`Json` is a decoded document. Whole numbers keep all their digits within 64 bits; every other
number is a double, held as its word. The fields of an object that was read are sorted by key and
no key comes twice; the printers write the fields in the order of the list.
-/

namespace CodeGraph

inductive Number where
  | natural (n : UInt64)
  /-- The whole number `-(n + 1)`. -/
  | negative (n : Fin 0x8000000000000000)
  /-- A finite double: its sign and the word of its magnitude. -/
  | float (negative : Bool) (word : Nat)
  deriving DecidableEq, Repr

def Number.ofInt : Int → Number
  | .ofNat n => natural n.toUInt64
  | .negSucc n => negative (Fin.ofNat _ n)

inductive Json where
  | null
  | bool (b : Bool)
  | num (n : Number)
  | str (s : String)
  | arr (items : List Json)
  | obj (fields : List (String × Json))
  deriving Repr

namespace Json

instance : Inhabited Json := ⟨null⟩

/-- The object with these fields: sorted by key, and of two fields with one key the later. -/
def object (fields : List (String × Json)) : Json := obj (Dictionary.ofList fields).entries

def nat (n : Nat) : Json := num (.natural n.toUInt64)

def int (n : Int) : Json := num (.ofInt n)

def ofOption (f : α → Json) : Option α → Json
  | none => null
  | some a => f a

def ofList (f : α → Json) (as : List α) : Json := arr (as.map f)

def get? : Json → String → Option Json
  | obj fields, k => fields.lookup k
  | _, _ => none

def str? : Json → Option String
  | str s => some s
  | _ => none

def nat? : Json → Option Nat
  | num (.natural n) => some n.toNat
  | _ => none

def bool? : Json → Option Bool
  | bool b => some b
  | _ => none

def items? : Json → Option (List Json)
  | arr items => some items
  | _ => none

def fields? : Json → Option (List (String × Json))
  | obj fields => some fields
  | _ => none

def isObject : Json → Bool
  | obj _ => true
  | _ => false

theorem sizeOf_lt_of_get? {j v : Json} {k : String} (h : j.get? k = some v) :
    sizeOf v < sizeOf j := by
  cases j with
  | obj fields =>
    have hmem : (k, v) ∈ fields := by
      simp only [get?] at h
      induction fields with
      | nil => simp at h
      | cons e es ih =>
        obtain ⟨k', v'⟩ := e
        rw [List.lookup_cons] at h
        split at h
        · rename_i hk
          have := LawfulBEq.eq_of_beq hk
          simp_all
        · exact List.mem_cons_of_mem _ (ih h)
    have := List.sizeOf_lt_of_mem hmem
    simp at this ⊢
    omega
  | _ => simp [get?] at h

theorem sizeOf_lt_of_mem_items {items : List Json} {v : Json} (h : v ∈ items) :
    sizeOf v < sizeOf (arr items) := by
  have := List.sizeOf_lt_of_mem h
  simp
  omega

end Json

end CodeGraph
