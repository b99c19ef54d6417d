import Mathlib
import CodeGraph.Config.Document
import CodeGraph.Proofs.Dumps

/-!
# Options written and read again

Whatever options are read from, they hold only what can be written: numbers of the widths that are read,
and no output file whose name stands for the standard output (`EngineOptions.Writable`). Such options are
decoded again from what they are written as (`EngineOptions.ofLiteral?_literal`), record by record, so
that options which an engine accepts are the same after they were written and read
(`EngineOptions.written_reads_back`).
-/

namespace CodeGraph

theorem bind_eq_self {ε α : Type} {x : Except ε α} {f : α → Except ε α} (h : ∀ a, x = .ok a → f a = .ok a) :
    x >>= f = x := by
  cases x with
  | error e => rfl
  | ok a => exact h a rfl

/-! ### What decoders give -/

/-- The decoder gives only what satisfies the property. -/
def Decoder.Yields {α : Type} (d : Decoder α) (P : α → Prop) : Prop :=
  ∀ depth l a, d depth l = some a → P a

namespace Decoder
variable {α : Type} {d : Decoder α} {P : α → Prop} {depth : Nat}

theorem yields_natural (limit : Nat) : (natural limit).Yields (· ≤ limit) := by
  intro depth l n h
  unfold natural at h
  split at h
  · split at h
    · next hle =>
      cases h
      exact hle
    · cases h
  · cases h

theorem Yields.option (h : d.Yields P) : (option d).Yields fun x => ∀ a ∈ x, P a := by
  intro depth l x hx a ha
  unfold Decoder.option at hx
  split at hx
  · cases hx
    cases ha
  · obtain ⟨a', ha', rfl⟩ := Option.map_eq_some_iff.1 hx
    cases ha
    exact h _ _ _ ha'

theorem natural_literal {limit n : Nat} (hn : n ≤ limit) (hlimit : limit < UInt64.size) :
    natural limit depth (Json.nat n).literal = some n := by
  have hword : n.toUInt64.toNat = n := UInt64.toNat_ofNat_of_lt' (Nat.lt_of_le_of_lt hn hlimit)
  rw [natural, Json.nat, Json.literal, Literal.number?, (Number.readsBack_natural _).value]
  dsimp only
  rw [hword, if_pos hn]

theorem option_literal {enc : α → Json} {x : Option α}
    (h : ∀ a ∈ x, (enc a).literal ≠ .null ∧ d depth (enc a).literal = some a) :
    Decoder.option d depth (Json.ofOption enc x).literal = some x := by
  cases x with
  | none => rfl
  | some a =>
    obtain ⟨hne, ha⟩ := h a rfl
    show Decoder.option d depth (enc a).literal = _
    unfold Decoder.option
    split
    · next hnull => exact absurd hnull hne
    · rw [ha, Option.map_some]

theorem choice_literal (dialect : Dialect) (names : List (String × α)) (name : String) :
    choice dialect names depth (Json.str name).literal = names.lookup name := by
  show (Text.ofUnits? (Text.unitsOf name)).bind _ = _
  rw [Text.ofUnits?_unitsOf, Option.bind_some]

theorem Yields.optional (h : d.Yields P) {f : RecordFields} {name : String} {default a : α}
    (ha : f.optional name d default = some a) (hdefault : P default) : P a := by
  unfold RecordFields.optional at ha
  split at ha
  · cases ha
    exact hdefault
  · exact h _ _ _ ha

end Decoder

namespace GremlinOptions
variable {o : GremlinOptions} {d : Nat}

/-- The port and the number of vertices to a page are of the widths that are read. -/
structure Writable (o : GremlinOptions) : Prop where
  port : o.port ≤ UInt16.size - 1
  batchSize : o.batchSize ≤ UInt64.size - 1

theorem yields_writable (dialect : Dialect) : (ofLiteral? dialect).Yields Writable := by
  intro depth l o h
  simp only [ofLiteral?, Option.bind_eq_bind, Option.bind_eq_some_iff] at h
  obtain ⟨f, -, host, -, port, hport, batchSize, hbatchSize, ho⟩ := h
  cases ho
  exact ⟨(Decoder.yields_natural _).optional hport (by decide),
    (Decoder.yields_natural _).optional hbatchSize (by decide)⟩

theorem readable_toJson (o : GremlinOptions) (d : Nat) : o.toJson.Readable (d + 1) := by
  refine .obj fun f hf => ?_
  rcases hf with _ | ⟨_, _ | ⟨_, _ | ⟨_, ⟨⟩⟩⟩⟩
  · exact .str
  · exact .num (Number.readsBack_natural _)
  · exact .num (Number.readsBack_natural _)

theorem ofLiteral?_literal (h : o.Writable) (hread : o.toJson.Readable d) :
    ofLiteral? .json d o.toJson.literal = some o := by
  obtain ⟨f, hf, hgiven⟩ := RecordFields.exists_given .json ["host", "port", "batchSize"] hread rfl
    (by decide)
  have hhost := (hgiven _ (.head _)).optional (Decoder.string_literal o.host) default.host
  have hport := (hgiven _ (.tail _ (.head _))).optional
    (Decoder.natural_literal h.port (by decide)) default.port
  have hbatchSize := (hgiven _ (.tail _ (.tail _ (.head _)))).optional
    (Decoder.natural_literal h.batchSize (by decide)) default.batchSize
  rw [ofLiteral?, toJson, hf]
  simp only [Option.bind_eq_bind, Option.bind_some, hhost, hport, hbatchSize]
  rfl

end GremlinOptions

namespace CacheOptions
variable {o : CacheOptions} {d : Nat}

/-- The number of vertices kept, if there is one, is of the width that is read. -/
def Writable (o : CacheOptions) : Prop := ∀ n ∈ o.capacity, n ≤ UInt64.size - 1

theorem yields_writable (dialect : Dialect) : (ofLiteral? dialect).Yields Writable := by
  intro depth l o h
  simp only [ofLiteral?, Option.bind_eq_bind, Option.bind_eq_some_iff] at h
  obtain ⟨f, -, capacity, hcapacity, ho⟩ := h
  cases ho
  exact (Decoder.yields_natural _).option.optional hcapacity nofun

theorem readable_toJson (o : CacheOptions) (d : Nat) : o.toJson.Readable (d + 1) := by
  refine .obj (List.forall_mem_singleton.2 ?_)
  show (Json.ofOption .nat o.capacity).Readable d
  cases o.capacity with
  | none => exact .null
  | some n => exact .num (Number.readsBack_natural _)

theorem ofLiteral?_literal (h : o.Writable) (hread : o.toJson.Readable d) :
    ofLiteral? .json d o.toJson.literal = some o := by
  obtain ⟨f, hf, hgiven⟩ := RecordFields.exists_given .json ["capacity"] hread rfl (by decide)
  have hcapacity := (hgiven _ (.head _)).optional (Decoder.option_literal fun n hn =>
    ⟨nofun, Decoder.natural_literal (h n hn) (by decide)⟩) none
  rw [ofLiteral?, toJson, hf]
  simp only [Option.bind_eq_bind, Option.bind_some, hcapacity]
  rfl

end CacheOptions

namespace DatabaseOptions
variable {o : DatabaseOptions} {d : Nat}

structure Writable (o : DatabaseOptions) : Prop where
  gremlin : o.gremlin.Writable
  cache : o.cache.Writable

theorem yields_writable (dialect : Dialect) : (ofLiteral? dialect).Yields Writable := by
  intro depth l o h
  simp only [ofLiteral?, Option.bind_eq_bind, Option.bind_eq_some_iff] at h
  obtain ⟨f, -, gremlin, hgremlin, cache, hcache, ho⟩ := h
  cases ho
  exact ⟨(GremlinOptions.yields_writable dialect).optional hgremlin ⟨by decide, by decide⟩,
    (CacheOptions.yields_writable dialect).optional hcache nofun⟩

theorem readable_toJson (o : DatabaseOptions) (d : Nat) : o.toJson.Readable (d + 2) := by
  refine .obj fun f hf => ?_
  rcases hf with _ | ⟨_, _ | ⟨_, ⟨⟩⟩⟩
  · exact o.gremlin.readable_toJson d
  · exact o.cache.readable_toJson d

theorem ofLiteral?_literal (h : o.Writable) (hread : o.toJson.Readable d) :
    ofLiteral? .json d o.toJson.literal = some o := by
  obtain ⟨f, hf, hgiven⟩ := RecordFields.exists_given .json ["gremlin", "cache"] hread rfl (by decide)
  have hgremlin := hgiven _ (.head _)
  have hgremlin := hgremlin.optional (GremlinOptions.ofLiteral?_literal h.gremlin hgremlin.readable)
    .default
  have hcache := hgiven _ (.tail _ (.head _))
  have hcache := hcache.optional (CacheOptions.ofLiteral?_literal h.cache hcache.readable) ⟨none⟩
  rw [ofLiteral?, toJson, hf]
  simp only [Option.bind_eq_bind, Option.bind_some, hgremlin, hcache]
  rfl

theorem validate_eq_ok_iff :
    o.validate = .ok () ↔ 1 ≤ o.gremlin.batchSize ∧ ∀ n, o.cache.capacity = some n → 1 ≤ n := by
  unfold validate
  by_cases hbatchSize : o.gremlin.batchSize = 0
  · rw [if_pos hbatchSize, hbatchSize]
    simp
  · rw [if_neg hbatchSize]
    cases hcapacity : o.cache.capacity with
    | none => simp [Nat.one_le_iff_ne_zero, hbatchSize]
    | some n => cases n <;> simp [Nat.one_le_iff_ne_zero, hbatchSize]

end DatabaseOptions

namespace LoggingOptions
variable {o : LoggingOptions} {d : Nat}

theorem readable_toJson (o : LoggingOptions) (d : Nat) : o.toJson.Readable (d + 2) := by
  refine .obj fun f hf => ?_
  rcases hf with _ | ⟨_, _ | ⟨_, ⟨⟩⟩⟩
  · exact .str
  · exact .obj (List.forall_mem_map.2 fun _ _ => .str)

theorem ofLiteral?_literal (hread : o.toJson.Readable d) :
    ofLiteral? .json d o.toJson.literal = some o := by
  obtain ⟨f, hf, hgiven⟩ := RecordFields.exists_given .json ["level", "targets"] hread rfl (by decide)
  have hlevel := (hgiven _ (.head _)).optional (Decoder.string_literal o.level) default.level
  have htargets := hgiven _ (.tail _ (.head _))
  have htargets := htargets.optional (Decoder.dictionary_literal (d := Decoder.string) Json.str rfl
    htargets.readable fun target _ _ _ => Decoder.string_literal target.2) .empty
  rw [ofLiteral?, toJson, hf]
  simp only [Option.bind_eq_bind, Option.bind_some, hlevel, htargets]
  rfl

end LoggingOptions

namespace OutputTarget

theorem ofText_text_ofText (s : String) : ofText (ofText s).text = ofText s := by
  by_cases h : s = "" ∨ s = "stdout" ∨ s = "-"
  · rw [show ofText s = stdout from if_pos h]
    rfl
  · rw [show ofText s = file s from if_neg h]
    exact if_neg h

end OutputTarget

namespace EngineOptions
variable {o : EngineOptions} {d : Nat}

/-- The numbers are of the widths that are read, and no output file has a name that is read as the
standard output. -/
structure Writable (o : EngineOptions) : Prop where
  database : o.database.Writable
  output : .ofText o.output.text = o.output

theorem yields_writable (dialect : Dialect) : (ofLiteral? dialect).Yields Writable := by
  intro depth l o h
  simp only [ofLiteral?, Option.bind_eq_bind, Option.bind_eq_some_iff] at h
  obtain ⟨f, -, database, hdatabase, formatter, -, style, -, output, -, logging, -, ho⟩ := h
  cases ho
  exact ⟨(DatabaseOptions.yields_writable dialect).optional hdatabase ⟨⟨by decide, by decide⟩, nofun⟩,
    OutputTarget.ofText_text_ofText output⟩

theorem readable_toJson (o : EngineOptions) (d : Nat) : o.toJson.Readable (d + 3) := by
  refine .obj fun f hf => ?_
  rcases hf with _ | ⟨_, _ | ⟨_, _ | ⟨_, _ | ⟨_, _ | ⟨_, ⟨⟩⟩⟩⟩⟩⟩
  · exact o.database.readable_toJson d
  · exact .str
  · exact .str
  · exact .str
  · exact o.logging.readable_toJson d

theorem ofLiteral?_literal (h : o.Writable) (hread : o.toJson.Readable d) :
    ofLiteral? .json d o.toJson.literal = some o := by
  obtain ⟨f, hf, hgiven⟩ := RecordFields.exists_given
    .json ["database", "formatter", "style", "output", "logging"] hread rfl (by decide)
  have hdatabase := hgiven _ (.head _)
  have hdatabase := hdatabase.optional
    (DatabaseOptions.ofLiteral?_literal h.database hdatabase.readable) .default
  have hformatter := (hgiven _ (.tail _ (.head _))).optional
    ((Decoder.choice_literal .json FormatterKind.names o.formatter.name).trans
      (by cases o.formatter <;> rfl : _ = some o.formatter)) .plain
  have hstyle := (hgiven _ (.tail _ (.tail _ (.head _)))).optional
    ((Decoder.choice_literal .json OutputStyle.names o.style.name).trans
      (by cases o.style <;> rfl : _ = some o.style)) .json
  have houtput := (hgiven _ (.tail _ (.tail _ (.tail _ (.head _))))).optional
    (Decoder.string_literal o.output.text) "stdout"
  have hlogging := hgiven _ (.tail _ (.tail _ (.tail _ (.tail _ (.head _)))))
  have hlogging := hlogging.optional (LoggingOptions.ofLiteral?_literal hlogging.readable) .default
  rw [ofLiteral?, toJson, hf]
  simp only [Option.bind_eq_bind, Option.bind_some, hdatabase, hformatter, hstyle, houtput, hlogging,
    h.output]
  rfl

/-- What is accepted was decoded, and an engine can run with it. -/
theorem validated_eq_ok_iff {decoded : Option EngineOptions} :
    validated decoded = .ok o ↔ decoded = some o ∧ o.database.validate = .ok () := by
  cases decoded with
  | none => simp [validated]
  | some o' =>
    show (o'.database.validate >>= fun _ => .ok o') = .ok o ↔ _
    cases hvalid : o'.database.validate with
    | ok _ =>
      show Except.ok o' = .ok o ↔ _
      rw [Except.ok.injEq, Option.some.injEq]
      exact ⟨fun h => ⟨h, h ▸ hvalid⟩, And.left⟩
    | error e =>
      refine ⟨nofun, fun ⟨h, hok⟩ => ?_⟩
      cases h
      cases hvalid.symm.trans hok

theorem writable_of_read {text : String} (h : ofJsonText text = .ok o ∨ ofTomlText text = .ok o) :
    o.Writable ∧ o.database.validate = .ok () := by
  rcases h with h | h
  all_goals
    obtain ⟨hdecoded, hvalid⟩ := validated_eq_ok_iff.1 h
    obtain ⟨l, -, hl⟩ := Option.bind_eq_some_iff.1 hdecoded
    exact ⟨yields_writable _ _ _ _ hl, hvalid⟩

theorem ofJsonText_toJson (h : o.Writable) (hvalid : o.database.validate = .ok ()) {text : String}
    (ht : text ∈ [o.toJson.compact, o.toJson.pretty]) : ofJsonText text = .ok o := by
  have hread := o.readable_toJson 124
  have hliteral : Literal.ofString? text = some o.toJson.literal := by
    rcases List.mem_pair.1 ht with rfl | rfl
    · exact Json.ofString?_compact hread
    · exact Json.ofString?_pretty hread
  refine validated_eq_ok_iff.2 ⟨?_, hvalid⟩
  rw [Decoder.parse?, hliteral, Option.bind_some]
  exact ofLiteral?_literal h hread

/-- Whoever reads options, from JSON or from TOML, writes them and reads what was written gets what was read
at first, an error included. The options that are accepted ask for pages that have vertices and for a
registry that has room, and either layout of what they are written as is read as these options. -/
theorem written_reads_back {read : String → Except Error EngineOptions}
    (hread : read = ofJsonText ∨ read = ofTomlText) (text : String) :
    (read text >>= fun o => ofJsonText o.toJson.compact) = read text ∧
      ∀ o, read text = .ok o →
        1 ≤ o.database.gremlin.batchSize ∧ (∀ n, o.database.cache.capacity = some n → 1 ≤ n) ∧
        ∀ written ∈ [o.toJson.compact, o.toJson.pretty], ofJsonText written = .ok o := by
  have hback {o : EngineOptions} (h : read text = .ok o) :
      o.database.validate = .ok () ∧
        ∀ written ∈ [o.toJson.compact, o.toJson.pretty], ofJsonText written = .ok o := by
    have hfrom : ofJsonText text = .ok o ∨ ofTomlText text = .ok o := by
      rcases hread with rfl | rfl
      · exact Or.inl h
      · exact Or.inr h
    obtain ⟨hwritable, hvalid⟩ := writable_of_read hfrom
    exact ⟨hvalid, fun _ => ofJsonText_toJson hwritable hvalid⟩
  refine ⟨?_, fun o h => ?_⟩
  · exact bind_eq_self fun o h => (hback h).2 o.toJson.compact (.head _)
  · obtain ⟨hvalid, hwritten⟩ := hback h
    obtain ⟨hbatchSize, hcapacity⟩ := DatabaseOptions.validate_eq_ok_iff.1 hvalid
    exact ⟨hbatchSize, hcapacity, hwritten⟩

/-- A text of options that leaves most of them out and names the standard output in another way. -/
def sparseText : String := "output = \"-\"\n[database.cache]\ncapacity = 3"

theorem written_reads_back_sparseText :
    ∃ o, ofTomlText sparseText = .ok o ∧ o.output = .stdout ∧ o.database.cache.capacity = some 3 ∧
      ofJsonText o.toJson.compact = .ok o := by
  let o : EngineOptions := { default with database := ⟨.default, ⟨some 3⟩⟩ }
  have h : ofTomlText sparseText = .ok o := by cbv
  have hback := (written_reads_back (.inr (.refl ofTomlText)) sparseText).2 o h
  exact ⟨o, h, rfl, rfl, hback.2.2 o.toJson.compact (.head _)⟩

end EngineOptions

end CodeGraph
