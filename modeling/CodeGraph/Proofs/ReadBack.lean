import CodeGraph.Proofs.Spelling
import CodeGraph.Json.Literal

/-!
# Documents read back

Both layouts of a document spell the same tokens (`Json.spells_compact`, `Json.spells_pretty`): they
differ in spaces between tokens only. The machine over tokens builds the literal of the document from
them (`Json.ofTokens?_tokens`), whatever brackets are open around it. What the literal stands for is the
document with the fields of its objects in order (`Json.normal`), if no number is lost and no more
brackets are open at once than a reader allows (`Json.Readable`). So a readable document is read back
from either layout (`Json.parse?_compact`, `Json.parse?_pretty`).
-/

namespace CodeGraph

namespace Json

/-- At most so many brackets of the document are open at once, and each number reads back. -/
inductive Readable : Nat → Json → Prop
  | null {d : Nat} : Readable d null
  | bool {d : Nat} {b : Bool} : Readable d (bool b)
  | num {d : Nat} {n : Number} (h : n.ReadsBack) : Readable d (num n)
  | str {d : Nat} {s : String} : Readable d (str s)
  | arr {d : Nat} {items : List Json} (h : ∀ j ∈ items, Readable d j) : Readable (d + 1) (arr items)
  | obj {d : Nat} {fields : List (String × Json)} (h : ∀ f ∈ fields, Readable d f.2) :
    Readable (d + 1) (obj fields)

mutual

def tokens : Json → List Token
  | null => [.null]
  | bool b => [.bool b]
  | num n => [.numeral n.numeral]
  | str s => [.text (Text.unitsOf s)]
  | arr items => .openArray :: (itemTokens true items ++ [.closeArray])
  | obj fields => .openObject :: (fieldTokens true fields ++ [.closeObject])

def itemTokens (first : Bool) : List Json → List Token
  | [] => []
  | v :: vs => (if first then [] else [.comma]) ++ tokens v ++ itemTokens false vs

def fieldTokens (first : Bool) : List (String × Json) → List Token
  | [] => []
  | (k, v) :: fs =>
    (if first then [] else [.comma]) ++ .text (Text.unitsOf k) :: .colon :: tokens v
      ++ fieldTokens false fs

end

mutual

def literal : Json → Literal
  | null => .null
  | bool b => .bool b
  | num n => .num n.numeral
  | str s => .str (Text.unitsOf s)
  | arr items => .arr (itemLiterals items)
  | obj fields => .obj (fieldLiterals fields)

def itemLiterals : List Json → List Literal
  | [] => []
  | v :: vs => literal v :: itemLiterals vs

def fieldLiterals : List (String × Json) → List (List Nat × Literal)
  | [] => []
  | (k, v) :: fs => (Text.unitsOf k, literal v) :: fieldLiterals fs

end

mutual

/-- The document with the fields of each object sorted by key, and of two with one key the later. -/
def normal : Json → Json
  | arr items => arr (normalItems items)
  | obj fields => object (normalFields fields)
  | j => j

def normalItems : List Json → List Json
  | [] => []
  | v :: vs => normal v :: normalItems vs

def normalFields : List (String × Json) → List (String × Json)
  | [] => []
  | (k, v) :: fs => (k, normal v) :: normalFields fs

end

/-! ### The tokens of a layout -/

open Token

theorem apart_newline (level : Nat) (cs : List Char) : Apart (newline level ++ cs) := apart_cons rfl

theorem spells_separator (first : Bool) {cs : List Char} {ts : List Token} (h : Spells cs ts) :
    Spells ((if first then [] else [',']) ++ cs) ((if first then [] else [.comma]) ++ ts) := by
  cases first
  · exact h.mark rfl
  · exact h

theorem apart_compactItems (vs : List Json) : Apart (compactItems false vs) := by
  cases vs with
  | nil => exact apart_nil
  | cons v vs => exact apart_cons rfl

theorem apart_compactFields (fs : List (String × Json)) : Apart (compactFields false fs) := by
  cases fs with
  | nil => exact apart_nil
  | cons f fs => exact apart_cons rfl

mutual

theorem spells_compact {d : Nat} {j : Json} (h : Readable d j) : Spells j.compactChars j.tokens := by
  cases h with
  | null => exact spells_name rfl rfl
  | @bool _ b => cases b <;> exact spells_name rfl rfl
  | num h => exact h.spells
  | str => exact spells_quote _
  | arr h => exact ((spells_compactItems true h).append (.mark rfl spells_nil) (apart_cons rfl)).mark rfl
  | obj h => exact ((spells_compactFields true h).append (.mark rfl spells_nil) (apart_cons rfl)).mark rfl

theorem spells_compactItems (first : Bool) {d : Nat} {vs : List Json} (h : ∀ v ∈ vs, Readable d v) :
    Spells (compactItems first vs) (itemTokens first vs) := by
  cases vs with
  | nil => exact spells_nil
  | cons v vs =>
    have ⟨hv, hvs⟩ := List.forall_mem_cons.1 h
    rw [compactItems, itemTokens, List.append_assoc, List.append_assoc]
    exact spells_separator first
      ((spells_compact hv).append (spells_compactItems false hvs) (apart_compactItems vs))

theorem spells_compactFields (first : Bool) {d : Nat} {fs : List (String × Json)}
    (h : ∀ f ∈ fs, Readable d f.2) : Spells (compactFields first fs) (fieldTokens first fs) := by
  cases fs with
  | nil => exact spells_nil
  | cons f fs =>
    obtain ⟨k, v⟩ := f
    have ⟨hv, hfs⟩ := List.forall_mem_cons.1 h
    rw [compactFields, fieldTokens]
    simp only [List.append_assoc, List.cons_append]
    exact spells_separator first ((spells_quote k).append
      (((spells_compact hv).append (spells_compactFields false hfs) (apart_compactFields fs)).mark rfl)
      (apart_cons rfl))

end

theorem apart_prettyItems (level : Nat) (vs : List Json) : Apart (prettyItems level false vs) := by
  cases vs with
  | nil => exact apart_nil
  | cons v vs => exact apart_cons rfl

theorem apart_prettyFields (level : Nat) (fs : List (String × Json)) :
    Apart (prettyFields level false fs) := by
  cases fs with
  | nil => exact apart_nil
  | cons f fs => exact apart_cons rfl

mutual

theorem spells_pretty (level : Nat) {d : Nat} {j : Json} (h : Readable d j) :
    Spells (prettyChars level j) j.tokens := by
  cases h with
  | null =>
    show Spells ['n', 'u', 'l', 'l'] _
    exact spells_name rfl rfl
  | @bool _ b =>
    cases b with
    | true =>
      show Spells ['t', 'r', 'u', 'e'] _
      exact spells_name rfl rfl
    | false =>
      show Spells ['f', 'a', 'l', 's', 'e'] _
      exact spells_name rfl rfl
  | num h => exact h.spells
  | str => exact spells_quote _
  | @arr _ items h =>
    cases items with
    | nil => exact (Spells.mark rfl spells_nil).mark rfl
    | cons v vs =>
      rw [prettyChars, tokens, List.append_assoc]
      exact ((spells_prettyItems (level + 1) true h).append (.newline level (.mark rfl spells_nil))
        (apart_newline level _)).mark rfl
  | @obj _ fields h =>
    cases fields with
    | nil => exact (Spells.mark rfl spells_nil).mark rfl
    | cons f fs =>
      rw [prettyChars, tokens, List.append_assoc]
      exact ((spells_prettyFields (level + 1) true h).append (.newline level (.mark rfl spells_nil))
        (apart_newline level _)).mark rfl

theorem spells_prettyItems (level : Nat) (first : Bool) {d : Nat} {vs : List Json}
    (h : ∀ v ∈ vs, Readable d v) : Spells (prettyItems level first vs) (itemTokens first vs) := by
  cases vs with
  | nil => exact spells_nil
  | cons v vs =>
    have ⟨hv, hvs⟩ := List.forall_mem_cons.1 h
    rw [prettyItems, itemTokens]
    simp only [List.append_assoc]
    exact spells_separator first (.newline level ((spells_pretty level hv).append
      (spells_prettyItems level false hvs) (apart_prettyItems level vs)))

theorem spells_prettyFields (level : Nat) (first : Bool) {d : Nat} {fs : List (String × Json)}
    (h : ∀ f ∈ fs, Readable d f.2) : Spells (prettyFields level first fs) (fieldTokens first fs) := by
  cases fs with
  | nil => exact spells_nil
  | cons f fs =>
    obtain ⟨k, v⟩ := f
    have ⟨hv, hfs⟩ := List.forall_mem_cons.1 h
    rw [prettyFields, fieldTokens]
    simp only [List.append_assoc, List.cons_append]
    have hvalue := (spells_pretty level hv).append (spells_prettyFields level false hfs)
      (apart_prettyFields level fs)
    have hspace : ∀ c ∈ [' '], isSpace c = true := fun c hc => by rw [List.mem_singleton.1 hc]; rfl
    exact spells_separator first (.newline level ((spells_quote k).append
      ((hvalue.blank hspace).mark rfl) (apart_cons rfl)))

end

/-! ### The literal of the tokens -/

open Literal

theorem head?_tokens (j : Json) : j.tokens.head? ≠ some .closeArray := by
  cases j <;> simp [tokens]

theorem foldlM_step_first {ts : List Token} (stack : List Frame) (hne : ts ≠ [])
    (h : ts.head? ≠ some .closeArray) :
    ts.foldlM step (.first stack) = ts.foldlM step (.value (.array [] :: stack)) := by
  cases ts with
  | nil => exact absurd rfl hne
  | cons t ts =>
    rw [List.foldlM_cons, List.foldlM_cons]
    cases t <;> first | rfl | exact absurd rfl h

mutual

/-- From the tokens of a value the machine gets to its literal, and the open brackets stay. -/
theorem foldlM_step_tokens (j : Json) (stack : List Frame) :
    j.tokens.foldlM step (.value stack) = some (.after j.literal stack) := by
  cases j with
  | null => rfl
  | bool b => rfl
  | num n => rfl
  | str s => rfl
  | arr items =>
    cases items with
    | nil => rfl
    | cons v vs =>
      rw [tokens, List.foldlM_cons]
      show (itemTokens true (v :: vs) ++ [Token.closeArray]).foldlM step (.first stack) = _
      rw [itemTokens, if_pos rfl, List.nil_append, List.append_assoc, List.foldlM_append,
        foldlM_step_first stack (by cases v <;> simp [tokens]) (head?_tokens v),
        foldlM_step_tokens v]
      exact foldlM_step_items vs v [] stack
  | obj fields =>
    cases fields with
    | nil => rfl
    | cons f fs =>
      obtain ⟨k, v⟩ := f
      rw [tokens, List.foldlM_cons]
      show (tokens v ++ fieldTokens false fs ++ [Token.closeObject]).foldlM step
        (.value (.object [] (Text.unitsOf k) :: stack)) = _
      rw [List.append_assoc, List.foldlM_append, foldlM_step_tokens v]
      exact foldlM_step_fields fs v [] (Text.unitsOf k) stack

theorem foldlM_step_items (vs : List Json) (v : Json) (before : List Literal) (stack : List Frame) :
    (itemTokens false vs ++ [Token.closeArray]).foldlM step (.after v.literal (.array before :: stack))
      = some (.after (.arr ((v.literal :: before).reverse ++ itemLiterals vs)) stack) := by
  cases vs with
  | nil =>
    rw [itemLiterals, List.append_nil]
    rfl
  | cons w vs =>
    rw [itemTokens, List.append_assoc, List.append_assoc]
    show (tokens w ++ (itemTokens false vs ++ [Token.closeArray])).foldlM step
      (.value (.array (v.literal :: before) :: stack)) = _
    rw [List.foldlM_append, foldlM_step_tokens w]
    refine (foldlM_step_items vs w (v.literal :: before) stack).trans ?_
    rw [itemLiterals, List.reverse_cons, List.append_assoc]
    rfl

theorem foldlM_step_fields (fs : List (String × Json)) (v : Json)
    (before : List (List Nat × Literal)) (key : List Nat) (stack : List Frame) :
    (fieldTokens false fs ++ [Token.closeObject]).foldlM step
        (.after v.literal (.object before key :: stack))
      = some (.after (.obj (((key, v.literal) :: before).reverse ++ fieldLiterals fs)) stack) := by
  cases fs with
  | nil =>
    rw [fieldLiterals, List.append_nil]
    rfl
  | cons f fs =>
    obtain ⟨k, w⟩ := f
    rw [fieldTokens, List.append_assoc, List.append_assoc]
    show (tokens w ++ (fieldTokens false fs ++ [Token.closeObject])).foldlM step
      (.value (.object ((key, v.literal) :: before) (Text.unitsOf k) :: stack)) = _
    rw [List.foldlM_append, foldlM_step_tokens w]
    refine (foldlM_step_fields fs w ((key, v.literal) :: before) (Text.unitsOf k) stack).trans ?_
    rw [fieldLiterals, List.reverse_cons, List.append_assoc]
    rfl

end

theorem ofTokens?_tokens (j : Json) : ofTokens? j.tokens = some j.literal := by
  rw [ofTokens?, foldlM_step_tokens]

/-! ### The document of the literal -/

mutual

theorem toJson?_literal {d : Nat} {j : Json} (h : Readable d j) :
    j.literal.toJson? d = some j.normal := by
  cases h with
  | null | bool => rw [literal, toJson?, normal] <;> nofun
  | num h => rw [literal, toJson?, h.value, Option.map_some, normal] <;> nofun
  | str => rw [literal, toJson?, Text.ofUnits?_unitsOf, Option.map_some, normal] <;> nofun
  | arr h =>
    rw [literal, toJson?, toItems?_literals h, Option.map_some, normal]
  | obj h =>
    rw [literal, toJson?, toFields?_literals h, Option.map_some, normal]

theorem toItems?_literals {d : Nat} {vs : List Json} (h : ∀ v ∈ vs, Readable d v) :
    toItems? d (itemLiterals vs) = some (normalItems vs) := by
  cases vs with
  | nil => rfl
  | cons v vs =>
    have ⟨hv, hvs⟩ := List.forall_mem_cons.1 h
    rw [itemLiterals, toItems?, toJson?_literal hv, toItems?_literals hvs, normalItems]
    rfl

theorem toFields?_literals {d : Nat} {fs : List (String × Json)} (h : ∀ f ∈ fs, Readable d f.2) :
    toFields? d (fieldLiterals fs) = some (normalFields fs) := by
  cases fs with
  | nil => rfl
  | cons f fs =>
    have ⟨hv, hfs⟩ := List.forall_mem_cons.1 h
    rw [fieldLiterals, toFields?, Text.ofUnits?_unitsOf, toJson?_literal hv, toFields?_literals hfs,
      normalFields]
    rfl

end

/-! ### Reading either layout -/

section
variable {d : Nat} {j : Json}

theorem ofString?_of_spells {cs : List Char} (h : Spells cs j.tokens) :
    Literal.ofString? (String.ofList cs) = some j.literal := by
  rw [Literal.ofString?, String.toList_ofList, h.ofChars?, Option.bind_some, ofTokens?_tokens]

theorem ofString?_compact (h : Readable d j) : Literal.ofString? j.compact = some j.literal :=
  ofString?_of_spells (spells_compact h)

theorem ofString?_pretty (h : Readable d j) : Literal.ofString? j.pretty = some j.literal :=
  ofString?_of_spells (spells_pretty 0 h)

theorem parse?_compact (h : Readable maxDepth j) : parse? j.compact = some j.normal := by
  rw [parse?, ofString?_compact h, Option.bind_some, toJson?_literal h]

theorem parse?_pretty (h : Readable maxDepth j) : parse? j.pretty = some j.normal := by
  rw [parse?, ofString?_pretty h, Option.bind_some, toJson?_literal h]

end

theorem parse?_eq_none_of_word {s : String} (blank : List Char) (c : Char)
    (hblank : ∀ b ∈ blank, isSpace b = true) (hs : ∃ more, s.toList = blank ++ c :: more)
    (hword : endsWord c = false) (hd : c.isDigit = false) (hc : c ∉ ['-', 'n', 't', 'f']) :
    parse? s = none := by
  obtain ⟨more, hs⟩ := hs
  have hcut : Token.ofChars? s.toList = none := by
    rw [hs, ofChars?_eq_cutFrom, cutFrom_blank hblank, cutFrom_between, enter_letter hword]
    exact cutFrom_word_eq_none fun more => ofWord?_cons_eq_none hd hc more
  rw [parse?, Literal.ofString?, hcut]
  rfl

end Json

end CodeGraph
