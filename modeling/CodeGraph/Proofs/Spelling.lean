import Mathlib.Data.List.TakeWhile
import CodeGraph.Json.Token
import CodeGraph.Json.Writer

/-!
# Spellings of tokens

`Token.cutFrom` is what a cut finds in the characters that are left. A list of characters spells some
tokens (`Token.Spells`) if a cut that stands between tokens and meets it stands between tokens again
behind it and has found just these. A word ends only at a character that ends words, so what follows
is `Apart` or nothing. Marks, spaces, words, quoted texts and whole numbers spell what they stand for,
and spellings are put together by `Token.Spells.append`. A word that is
no token however it goes on spoils the whole text (`Token.cutFrom_word_eq_none`).
-/

namespace CodeGraph

namespace Token

variable {c : Char} {cs cs' read rest : List Char} {t : Token} {ts ts' found : List Token}

/-- The tokens of a text whose cut has come so far and of which these characters are left. -/
def cutFrom (s : Cut) (cs : List Char) : Option (List Token) := (cs.foldlM advance s).bind finish

theorem cutFrom_nil (s : Cut) : cutFrom s [] = finish s := rfl

theorem cutFrom_cons (s : Cut) (c : Char) (cs : List Char) :
    cutFrom s (c :: cs) = (advance s c).bind (cutFrom · cs) := by
  unfold cutFrom
  rw [List.foldlM_cons]
  exact Option.bind_assoc ..

theorem ofChars?_eq_cutFrom (cs : List Char) : ofChars? cs = cutFrom ⟨.between, []⟩ cs := rfl

theorem cutFrom_between (found : List Token) (c : Char) (cs : List Char) :
    cutFrom ⟨.between, found⟩ (c :: cs) = cutFrom (enter found c) cs := cutFrom_cons ..

theorem cutFrom_word_nil (found : List Token) (read : List Char) :
    cutFrom ⟨.word read, found⟩ [] = (ofWord? read.reverse).map fun t => (t :: found).reverse := rfl

theorem cutFrom_word_cons (found : List Token) (read : List Char) (c : Char) (cs : List Char) :
    cutFrom ⟨.word read, found⟩ (c :: cs)
      = if endsWord c then (ofWord? read.reverse).bind fun t => cutFrom (enter (t :: found) c) cs
        else cutFrom ⟨.word (c :: read), found⟩ cs := by
  rw [cutFrom_cons]
  dsimp only [advance]
  by_cases h : endsWord c = true
  · rw [if_pos h, if_pos h, Option.bind_map]
    rfl
  · rw [if_neg h, if_neg h, Option.bind_some]

/-! ### One character -/

theorem isSpace_of_ofMark? (h : ofMark? c = some t) : isSpace c = false := by
  unfold ofMark? at h
  repeat' split at h
  all_goals first | subst c; decide | cases h

theorem enter_mark (h : ofMark? c = some t) : enter found c = ⟨.between, t :: found⟩ := by
  have hq : c ≠ '"' := fun hc => by subst hc; cases h
  rw [enter, isSpace_of_ofMark? h, if_neg (by decide), if_neg hq, h]

theorem enter_space (h : isSpace c = true) : enter found c = ⟨.between, found⟩ := by
  rw [enter, if_pos h]

theorem enter_letter (h : endsWord c = false) : enter found c = ⟨.word [c], found⟩ := by
  simp only [endsWord, Bool.or_eq_false_iff, decide_eq_false_iff_not, Option.isSome_eq_false_iff,
    Option.isNone_iff_eq_none] at h
  rw [enter, h.1.1, if_neg (by decide), if_neg h.1.2, h.2]

theorem endsWord_of_isDigit (h : c.isDigit = true) : endsWord c = false := by
  simp only [Char.isDigit, Bool.and_eq_true, decide_eq_true_eq] at h
  simp only [endsWord, isSpace, ofMark?, Bool.or_eq_false_iff, decide_eq_false_iff_not]
  refine ⟨⟨⟨⟨⟨?_, ?_⟩, ?_⟩, ?_⟩, ?_⟩, ?_⟩
  case refine_6 =>
    repeat' split
    all_goals first | subst c; revert h; decide | rfl
  all_goals rintro rfl; revert h; decide

theorem cutFrom_blank (hcs : ∀ c ∈ cs, isSpace c = true) :
    cutFrom ⟨.between, found⟩ (cs ++ rest) = cutFrom ⟨.between, found⟩ rest := by
  induction cs with
  | nil => rfl
  | cons c cs ih =>
    have ⟨hc, hcs⟩ := List.forall_mem_cons.1 hcs
    rw [List.cons_append, cutFrom_between, enter_space hc, ih hcs]

/-! ### What spells what -/

/-- The text begins with a character that ends a word, or is empty. -/
def Apart (cs : List Char) : Prop := ∀ c ∈ cs.head?, endsWord c = true

theorem apart_nil : Apart [] := nofun

theorem apart_cons (h : endsWord c = true) : Apart (c :: cs) := by
  rintro _ ⟨⟩
  exact h

theorem Apart.append (h : Apart cs) (h' : Apart cs') : Apart (cs ++ cs') := by
  cases cs with
  | nil => exact h'
  | cons c cs => exact h

/-- A cut between tokens that meets these characters finds these tokens in them, whatever it has
found before and whatever follows apart. -/
def Spells (cs : List Char) (ts : List Token) : Prop :=
  ∀ found rest, Apart rest →
    cutFrom ⟨.between, found⟩ (cs ++ rest) = cutFrom ⟨.between, ts.reverse ++ found⟩ rest

theorem Spells.ofChars? (h : Spells cs ts) : ofChars? cs = some ts := by
  have h := h [] [] apart_nil
  rwa [List.append_nil, List.append_nil, cutFrom_nil, finish, List.reverse_reverse] at h

theorem spells_nil : Spells [] [] := fun _ _ _ => rfl

theorem Spells.append (h : Spells cs ts) (h' : Spells cs' ts') (hc : Apart cs') :
    Spells (cs ++ cs') (ts ++ ts') := fun found rest hrest => by
  rw [List.append_assoc, h found _ (hc.append hrest), h' _ rest hrest, List.reverse_append,
    List.append_assoc]

theorem Spells.mark (hc : ofMark? c = some t) (h : Spells cs ts) : Spells (c :: cs) (t :: ts) :=
  fun found rest hrest => by
    rw [List.cons_append, cutFrom_between, enter_mark hc, h _ rest hrest, List.reverse_cons,
      List.append_assoc]
    rfl

theorem Spells.blank (hcs : ∀ c ∈ cs, isSpace c = true) (h : Spells cs' ts) : Spells (cs ++ cs') ts :=
  fun found rest hrest => by
    rw [List.append_assoc, cutFrom_blank hcs, h found rest hrest]

theorem Spells.newline (level : Nat) (h : Spells cs ts) : Spells (Json.newline level ++ cs) ts := by
  refine h.blank fun c hc => ?_
  rcases List.mem_cons.1 hc with rfl | hc
  · rfl
  · rw [(List.mem_replicate.1 hc).2]
    rfl

/-! ### Words -/

theorem cutFrom_letters (hcs : ∀ c ∈ cs, endsWord c = false) (read : List Char) :
    cutFrom ⟨.word read, found⟩ (cs ++ rest) = cutFrom ⟨.word (cs.reverse ++ read), found⟩ rest := by
  induction cs generalizing read with
  | nil => rfl
  | cons c cs ih =>
    have ⟨hc, hcs⟩ := List.forall_mem_cons.1 hcs
    rw [List.cons_append, cutFrom_word_cons, hc, if_neg (by decide), ih hcs, List.reverse_cons,
      List.append_assoc]
    rfl

theorem cutFrom_word (ht : ofWord? cs.reverse = some t) (hrest : Apart rest) :
    cutFrom ⟨.word cs, found⟩ rest = cutFrom ⟨.between, t :: found⟩ rest := by
  cases rest with
  | nil =>
    rw [cutFrom_word_nil, ht]
    rfl
  | cons c rest =>
    rw [cutFrom_word_cons, if_pos (hrest c rfl), ht, Option.bind_some, cutFrom_between]

theorem spells_word (hcs : ∀ c ∈ cs, endsWord c = false) (ht : ofWord? cs = some t) :
    Spells cs [t] := fun found rest hrest => by
  cases cs with
  | nil => cases ht
  | cons c cs =>
    have ⟨hc, hcs⟩ := List.forall_mem_cons.1 hcs
    rw [List.cons_append, cutFrom_between, enter_letter hc, cutFrom_letters hcs,
      cutFrom_word (by simpa using ht) hrest]
    rfl

theorem spells_name (hcs : cs.any endsWord = false) (ht : ofWord? cs = some t) : Spells cs [t] :=
  spells_word (fun c hc => Bool.eq_false_iff.2 (List.any_eq_false.1 hcs c hc)) ht

/-- A word that is no token however it goes on spoils the text. -/
theorem cutFrom_word_eq_none (h : ∀ more, ofWord? (read.reverse ++ more) = none) :
    cutFrom ⟨.word read, found⟩ rest = none := by
  have hread : ofWord? read.reverse = none := by simpa using h []
  induction rest generalizing read with
  | nil => rw [cutFrom_word_nil, hread, Option.map_none]
  | cons c rest ih =>
    rw [cutFrom_word_cons]
    by_cases hc : endsWord c = true
    · rw [if_pos hc, hread, Option.bind_none]
    · rw [if_neg hc]
      have hmore (more) : ofWord? ((c :: read).reverse ++ more) = none := by
        simpa using h (c :: more)
      exact ih hmore (by simpa using hmore [])

theorem ofWord?_cons_eq_none (hd : c.isDigit = false) (hc : c ∉ ['-', 'n', 't', 'f']) (more) :
    ofWord? (c :: more) = none := by
  simp only [List.mem_cons, List.not_mem_nil, or_false, not_or] at hc
  obtain ⟨hm, hn, ht, hf⟩ := hc
  have hnumeral : Numeral.ofChars? (c :: more) = none := by
    rw [Numeral.ofChars?.eq_2 _ (by simpa using hm)]
    simp [Numeral.magnitudeOf?, hd]
  rw [ofWord?, if_neg (by simp [hn]), if_neg (by simp [ht]), if_neg (by simp [hf]), hnumeral,
    Option.map_none]

/-! ### Quoted texts -/

theorem hexValue?_hexDigit (n : Nat) : hexValue? (hexDigit n) = some (n % 16) := by
  have h : ∀ d : Fin 16, hexValue? (Nat.digitChar d) = some d.val := by decide
  exact h ⟨n % 16, Nat.mod_lt _ (by decide)⟩

theorem cutFrom_escape (us : List Nat) :
    cutFrom ⟨.text us, found⟩ (Json.escape c ++ rest) = cutFrom ⟨.text (c.toNat :: us), found⟩ rest := by
  by_cases hbrief : c ∈ ['"', '\\', '\x08', '\t', '\n', '\x0c', '\r']
  · simp only [List.mem_cons, List.not_mem_nil, or_false] at hbrief
    rcases hbrief with rfl | rfl | rfl | rfl | rfl | rfl | rfl <;> rfl
  simp only [List.mem_cons, List.not_mem_nil, or_false, not_or] at hbrief
  obtain ⟨hq, hb, h8, ht, hn, hf, hr⟩ := hbrief
  rw [Json.escape, if_neg hq, if_neg hb, if_neg h8, if_neg ht, if_neg hn, if_neg hf, if_neg hr]
  by_cases hc : c.toNat < 0x20
  · have hvalue : 16 * (c.toNat / 16 % 16) + c.toNat % 16 = c.toNat := by omega
    rw [if_pos hc]
    simp [cutFrom_cons, advance, hexValue?_hexDigit, show hexValue? '0' = some 0 from rfl, hvalue]
  · rw [if_neg hc, List.cons_append, cutFrom_cons, advance]
    simp only [if_neg hq, if_neg hb, if_neg hc, Option.bind_some, List.nil_append]

theorem cutFrom_escapes (cs : List Char) (us : List Nat) :
    cutFrom ⟨.text us, found⟩ (cs.flatMap Json.escape ++ rest)
      = cutFrom ⟨.text ((cs.map Char.toNat).reverse ++ us), found⟩ rest := by
  induction cs generalizing us with
  | nil => rfl
  | cons c cs ih =>
    rw [List.flatMap_cons, List.append_assoc, cutFrom_escape, ih, List.map_cons, List.reverse_cons,
      List.append_assoc]
    rfl

theorem spells_quote (s : String) : Spells (Json.quote s) [text (Text.unitsOf s)] :=
  fun found rest _ => by
    show cutFrom ⟨.text [], found⟩ (s.toList.flatMap Json.escape ++ ['"'] ++ rest) = _
    rw [List.append_assoc, cutFrom_escapes, List.append_nil]
    show cutFrom ⟨.between, text (s.toList.map Char.toNat).reverse.reverse :: found⟩ rest = _
    rw [List.reverse_reverse]
    rfl

end Token

/-! ### Numbers -/

namespace Number

def numeral (n : Number) : Numeral := (Numeral.ofChars? n.text).getD ⟨false, [], [], none⟩

/-- What is written for the number is one word, which is read as the number. -/
structure ReadsBack (n : Number) : Prop where
  letters : ∀ c ∈ n.text, Token.endsWord c = false
  word : Token.ofWord? n.text = some (.numeral n.numeral)
  value : n.numeral.value? = some n

theorem ReadsBack.spells {n : Number} (h : n.ReadsBack) : Token.Spells n.text [.numeral n.numeral] :=
  Token.spells_word h.letters h.word

end Number

/-! ### Whole numbers -/

section Digits
variable {n : Nat} {c : Char}

theorem isDigit_of_mem_digits (h : c ∈ Nat.toDigits 10 n) : c.isDigit = true :=
  Nat.isDigit_of_mem_toDigits (by decide) (by decide) h

theorem digitsValue_digits (n : Nat) : digitsValue (Nat.toDigits 10 n) = n :=
  Nat.ofDigitChars_ten_toDigits

theorem digits_no_leading_zero (n : Nat) :
    (Nat.toDigits 10 n).length ≤ 1 ∨ (Nat.toDigits 10 n).head? ≠ some '0' := by
  induction n using Nat.strongRecOn with
  | ind n ih =>
    by_cases hn : n < 10
    · exact Or.inl (by rw [Nat.toDigits_of_lt_base hn, List.length_singleton])
    · right
      have hdigits := Nat.toDigits_of_base_le (b := 10) (n := n) (by decide) (Nat.not_lt.1 hn)
      rw [hdigits, List.head?_append, Option.or_of_isSome (by simp [Nat.toDigits_ne_nil])]
      rcases ih (n / 10) (by omega) with hshort | hhead
      · have hlt : n / 10 < 10 := by
          simpa using (Nat.length_toDigits_le_iff (b := 10) (k := 1) (by decide) (by decide)).1 hshort
        rw [Nat.toDigits_of_lt_base hlt, List.head?_cons, ne_eq, Option.some.injEq,
          Nat.digitChar_eq_zero]
        omega
      · exact hhead

theorem magnitudeOf?_digits (negative : Bool) (n : Nat) :
    Numeral.magnitudeOf? negative (Nat.toDigits 10 n)
      = some ⟨negative, Nat.toDigits 10 n, [], none⟩ := by
  have hall : ∀ c ∈ Nat.toDigits 10 n, c.isDigit = true := fun _ => isDigit_of_mem_digits
  have hfirst : ((Nat.toDigits 10 n).isEmpty
      || ((Nat.toDigits 10 n).length > 1 && (Nat.toDigits 10 n).head? == some '0')) = false := by
    rw [Bool.or_eq_false_iff, Bool.and_eq_false_iff]
    refine ⟨by simp [Nat.toDigits_ne_nil], ?_⟩
    rcases digits_no_leading_zero n with h | h
    · exact Or.inl (by simpa using h)
    · exact Or.inr (by simpa using h)
  have htake := List.takeWhile_eq_self_iff.2 hall
  have hdrop := List.dropWhile_eq_nil_iff.2 hall
  unfold Numeral.magnitudeOf?
  simp only [htake, hdrop, hfirst]
  rfl

theorem ofChars?_digits (n : Nat) :
    Numeral.ofChars? (Nat.toDigits 10 n) = some ⟨false, Nat.toDigits 10 n, [], none⟩ := by
  rw [Numeral.ofChars?.eq_2, magnitudeOf?_digits]
  intro cs h
  have : ('-').isDigit = true := isDigit_of_mem_digits (n := n) (by rw [h]; exact List.mem_cons_self ..)
  cases this

end Digits

namespace Number

theorem readsBack_natural (n : UInt64) : (natural n).ReadsBack := by
  have hword : Numeral.ofChars? (natural n).text = some (natural n).numeral := by
    rw [numeral, text, ofChars?_digits]
    rfl
  refine ⟨fun c hc => Token.endsWord_of_isDigit (isDigit_of_mem_digits hc), ?_, ?_⟩
  · have hd : ∀ c ∈ (natural n).text, c.isDigit = true := fun _ => isDigit_of_mem_digits
    rw [Token.ofWord?, if_neg, if_neg, if_neg, hword, Option.map_some]
    all_goals
      intro h
      rw [h] at hd
      exact absurd (hd _ (List.mem_cons_self ..)) (by decide)
  · rw [numeral, text, ofChars?_digits]
    simp [Numeral.value?, digitsValue_digits, Numeral.limit]
    have := n.toNat_lt
    omega

theorem readsBack_negative (n : Fin 0x8000000000000000) : (negative n).ReadsBack := by
  have hword : Numeral.ofChars? (negative n).text = some ⟨true, Nat.toDigits 10 (n.val + 1), [], none⟩ :=
    magnitudeOf?_digits true (n.val + 1)
  refine ⟨fun c hc => ?_, ?_, ?_⟩
  · rcases List.mem_cons.1 hc with rfl | hc
    · decide
    · exact Token.endsWord_of_isDigit (isDigit_of_mem_digits hc)
  · rw [Token.ofWord?, if_neg (by simp [text]), if_neg (by simp [text]), if_neg (by simp [text]),
      numeral, hword]
    rfl
  · have hv : 0 < n.val + 1 ∧ n.val + 1 ≤ 0x8000000000000000 := ⟨n.val.succ_pos, n.isLt⟩
    rw [numeral, hword]
    simp only [Numeral.value?, Option.getD_some, digitsValue_digits, List.isEmpty_nil,
      Option.isNone_none, Bool.and_self, if_true, dif_pos hv, Nat.add_sub_cancel]

end Number

end CodeGraph
