import Mathlib.Data.List.Nodup
import CodeGraph.Proofs.Store
import CodeGraph.Proofs.Views

/-!
# Graphs read back

A graph as a record is written as a document and read again from its text. A document without doubles is
readable up to its depth (`Json.Whole.readable`), and one whose objects list their fields by key is its own
normal form (`Json.Ordered.normal_eq`). The fields of a record that are written under different names are
found again under these names (`RecordFields.exists_given`), so that vertices, edges and whole graphs are
decoded from what they are written as. The store made of the text lists the vertices of the graph and gives
the edges of each vertex in order (`InMemoryStore.written_graph_reads_back`).
-/

namespace CodeGraph

/-! ### Sorted entries -/

namespace Dictionary

variable {α : Type}

theorem place_of_all_lt {k : String} {v : α} {es : List (String × α)} (h : ∀ e ∈ es, e.1 < k) :
    place k v es = es ++ [(k, v)] := by
  induction es with
  | nil => rfl
  | cons e es ih =>
    obtain ⟨he, hes⟩ := List.forall_mem_cons.1 h
    have hlt : ¬ k < e.1 := fun hk => String.lt_irrefl _ (String.lt_trans he hk)
    have hne : k ≠ e.1 := fun hk => String.lt_irrefl k (hk ▸ he)
    rw [place, if_neg hlt, if_neg hne, ih hes, List.cons_append]

theorem entries_ofList {es : List (String × α)} (h : es.Pairwise fun a b => a.1 < b.1) :
    (ofList es).entries = es := by
  have hgen : ∀ (rest : List (String × α)) (d : Dictionary α),
      (d.entries ++ rest).Pairwise (fun a b => a.1 < b.1) →
      (rest.foldl (fun d e => d.insert e.1 e.2) d).entries = d.entries ++ rest := by
    intro rest
    induction rest with
    | nil => exact fun d _ => (List.append_nil _).symm
    | cons e rest ih =>
      intro d hd
      have hlt : ∀ x ∈ d.entries, x.1 < e.1 := fun x hx =>
        (List.pairwise_append.1 hd).2.2 x hx e (List.mem_cons_self ..)
      have hput : (d.insert e.1 e.2).entries = d.entries ++ [e] := place_of_all_lt hlt
      rw [List.foldl_cons, ih _ (by rw [hput, List.append_assoc]; exact hd), hput, List.append_assoc]
      rfl
  exact hgen es empty h

theorem ofList_entries (d : Dictionary α) : ofList d.entries = d := by
  obtain ⟨es, hes⟩ := d
  have h := entries_ofList hes
  generalize ofList es = d at h ⊢
  cases d
  cases h
  rfl

end Dictionary

/-! ### Documents -/

namespace Json

mutual

/-- How many brackets of the document are open at once at most. -/
def depth : Json → Nat
  | arr items => depthItems items + 1
  | obj fields => depthFields fields + 1
  | _ => 0

def depthItems : List Json → Nat
  | [] => 0
  | v :: vs => max (depth v) (depthItems vs)

def depthFields : List (String × Json) → Nat
  | [] => 0
  | (_, v) :: fs => max (depth v) (depthFields fs)

end

/-- No number in the document is a double. -/
inductive Whole : Json → Prop
  | null : Whole null
  | bool {b : Bool} : Whole (bool b)
  | natural {n : UInt64} : Whole (num (.natural n))
  | negative {n : Fin 0x8000000000000000} : Whole (num (.negative n))
  | str {s : String} : Whole (str s)
  | arr {items : List Json} (h : ∀ j ∈ items, Whole j) : Whole (arr items)
  | obj {fields : List (String × Json)} (h : ∀ f ∈ fields, Whole f.2) : Whole (obj fields)

/-- Each object of the document lists its fields in the order of their keys, each key once. -/
inductive Ordered : Json → Prop
  | null : Ordered null
  | bool {b : Bool} : Ordered (bool b)
  | num {n : Number} : Ordered (num n)
  | str {s : String} : Ordered (str s)
  | arr {items : List Json} (h : ∀ j ∈ items, Ordered j) : Ordered (arr items)
  | obj {fields : List (String × Json)} (hkeys : fields.Pairwise fun a b => a.1 < b.1)
    (h : ∀ f ∈ fields, Ordered f.2) : Ordered (obj fields)

variable {d : Nat} {j : Json} {items : List Json} {fields : List (String × Json)}

theorem depth_le_depthItems (h : j ∈ items) : j.depth ≤ depthItems items := by
  induction items with
  | nil => cases h
  | cons v vs ih =>
    rw [depthItems]
    rcases List.mem_cons.1 h with rfl | h
    · exact Nat.le_max_left ..
    · exact Nat.le_trans (ih h) (Nat.le_max_right ..)

theorem depth_le_depthFields {f : String × Json} (h : f ∈ fields) : f.2.depth ≤ depthFields fields := by
  induction fields with
  | nil => cases h
  | cons g gs ih =>
    rw [depthFields]
    rcases List.mem_cons.1 h with rfl | h
    · exact Nat.le_max_left ..
    · exact Nat.le_trans (ih h) (Nat.le_max_right ..)

/-- A document without doubles is read back by whoever allows as many open brackets as it has. -/
theorem Whole.readable (h : j.Whole) (hd : j.depth ≤ d) : j.Readable d := by
  induction h generalizing d with
  | null => exact .null
  | bool => exact .bool
  | natural => exact .num (Number.readsBack_natural _)
  | negative => exact .num (Number.readsBack_negative _)
  | str => exact .str
  | @arr items _ ih =>
    rw [depth] at hd
    obtain ⟨d, rfl⟩ := Nat.exists_eq_add_of_le' (Nat.le_trans (Nat.le_add_left 1 _) hd)
    exact .arr fun v hv => ih v hv
      (Nat.le_trans (depth_le_depthItems hv) (Nat.le_of_succ_le_succ hd))
  | @obj fields _ ih =>
    rw [depth] at hd
    obtain ⟨d, rfl⟩ := Nat.exists_eq_add_of_le' (Nat.le_trans (Nat.le_add_left 1 _) hd)
    exact .obj fun f hf => ih f hf
      (Nat.le_trans (depth_le_depthFields hf) (Nat.le_of_succ_le_succ hd))

theorem whole_ofList {α : Type} {f : α → Json} {as : List α} (h : ∀ a ∈ as, (f a).Whole) :
    (ofList f as).Whole :=
  .arr (List.forall_mem_map.2 h)

theorem normalFields_eq (fields : List (String × Json)) :
    normalFields fields = fields.map fun f => (f.1, f.2.normal) := by
  induction fields with
  | nil => rfl
  | cons f fs ih => rw [normalFields, ih, List.map_cons]

theorem fieldLiterals_eq (fields : List (String × Json)) :
    fieldLiterals fields = fields.map fun f => (Text.unitsOf f.1, f.2.literal) := by
  induction fields with
  | nil => rfl
  | cons f fs ih => rw [fieldLiterals, ih, List.map_cons]

theorem Ordered.normal_eq (h : j.Ordered) : j.normal = j := by
  induction h with
  | null | bool | num | str => simp only [normal]
  | @arr items _ ih =>
    rw [normal, normalItems_eq, List.map_congr_left ih, List.map_id']
  | @obj fields hkeys _ ih =>
    have hfields : (fields.map fun f => (f.1, f.2.normal)) = fields :=
      (List.map_congr_left fun f hf => by rw [ih f hf]).trans (List.map_id' fields)
    rw [normal, normalFields_eq, hfields, object, Dictionary.entries_ofList hkeys]

theorem decode_of_ordered (h : j.Readable d) (ho : j.Ordered) : Decoder.json d j.literal = some j := by
  rw [Decoder.json, toJson?_literal h, ho.normal_eq]

end Json

/-! ### Records -/

namespace Decoder

variable {α : Type} {d : Decoder α} {lit : α → Literal} {depth : Nat}

theorem dictionary_entries (lit : α → Literal) {m : Dictionary α}
    (h : ∀ e ∈ m.entries, d depth (lit e.2) = some e.2) :
    dictionary d (depth + 1) (.obj (m.entries.map fun e => (Text.unitsOf e.1, lit e.2))) = some m := by
  have hread : ∀ es : List (String × α), (∀ e ∈ es, d depth (lit e.2) = some e.2) →
      ((es.map fun e => (Text.unitsOf e.1, lit e.2)).mapM fun f => do
        let k ← Text.ofUnits? f.1
        let v ← d depth f.2
        pure (k, v)) = some es := by
    intro es hes
    induction es with
    | nil => rfl
    | cons e es ih =>
      obtain ⟨he, hes⟩ := List.forall_mem_cons.1 hes
      rw [List.map_cons, List.mapM_cons, ih hes, he, Text.ofUnits?_unitsOf]
      rfl
  rw [dictionary, hread m.entries h, Option.map_some, Dictionary.ofList_entries]

theorem list_literal {enc : α → Json} {as : List α} (h : (Json.ofList enc as).Readable depth)
    (hd : ∀ a ∈ as, ∀ k, (enc a).Readable k → d k (enc a).literal = some a) :
    list d depth (Json.ofList enc as).literal = some as := by
  rw [Json.literal_ofList]
  cases h with
  | arr h => exact list_map fun a ha => hd a ha _ (h _ (List.mem_map_of_mem ha))

theorem dictionary_literal (enc : α → Json) {m : Dictionary α} {fields : List (String × Json)}
    (hf : fields = m.entries.map fun e => (e.1, enc e.2)) (h : (Json.obj fields).Readable depth)
    (hd : ∀ e ∈ m.entries, ∀ k, (enc e.2).Readable k → d k (enc e.2).literal = some e.2) :
    dictionary d depth (Json.obj fields).literal = some m := by
  subst hf
  rw [Json.literal, Json.fieldLiterals_eq, List.map_map]
  cases h with
  | obj h =>
    exact dictionary_entries (fun a => (enc a).literal) fun e he =>
      hd e he _ (h _ (List.mem_map_of_mem (f := fun e => (e.1, enc e.2)) he))

theorem string_literal (s : String) : string depth (Json.str s).literal = some s := string_units s

theorem word64_literal (n : UInt64) : word64 depth (Json.num (.natural n)).literal = some n := by
  rw [word64, Json.literal, Literal.number?, (Number.readsBack_natural n).value]

end Decoder

namespace RecordFields

variable {names : List String} {fields : List (String × Json)} {depth : Nat}

theorem collect_fieldLiterals (given : List (String × Literal))
    (hn : (given.map (·.1) ++ fields.map (·.1)).Nodup) (hs : ∀ f ∈ fields, f.1 ∈ names) :
    collect names given (Json.fieldLiterals fields)
      = some ((fields.map fun f => (f.1, f.2.literal)).reverse ++ given) := by
  induction fields generalizing given with
  | nil => rfl
  | cons f fs ih =>
    obtain ⟨hf, hfs⟩ := List.forall_mem_cons.1 hs
    have hnew : given.lookup f.1 = none := List.lookup_eq_none_iff.2 fun e he => bne_iff_ne.2 fun heq =>
      (List.nodup_append.1 hn).2.2 e.1 (List.mem_map_of_mem he) f.1 (List.mem_cons_self ..) heq.symm
    rw [Json.fieldLiterals, collect, Text.ofUnits?_unitsOf]
    dsimp only
    rw [if_pos (List.contains_iff_mem.2 hf), hnew, Option.isSome_none, if_neg Bool.false_ne_true,
      ih _ ?_ hfs, List.map_cons, List.reverse_cons, List.append_assoc]
    · rfl
    · exact List.nodup_middle.1 hn

/-- What a record was given holds a field that can be read. -/
structure Holds (f : RecordFields) (name : String) (j : Json) : Prop where
  readable : j.Readable f.depth
  given : f.given.lookup name = some j.literal

theorem exists_given (dialect : Dialect) (names : List String) (h : (Json.obj fields).Readable depth)
    (hnames : fields.map (·.1) = names) (hn : names.Nodup) :
    ∃ f, ofLiteral? dialect names depth (Json.obj fields).literal = some f ∧
      ∀ x ∈ fields, f.Holds x.1 x.2 := by
  subst hnames
  cases h with
  | @obj depth _ h =>
    refine ⟨⟨depth, (fields.map fun f => (f.1, f.2.literal)).reverse⟩, ?_, fun x hx => ⟨h x hx, ?_⟩⟩
    · rw [Json.literal, ofLiteral?,
        collect_fieldLiterals [] hn fun f hf => List.mem_map_of_mem hf, Option.map_some, List.append_nil]
    · refine lookup_of_mem ?_
        (List.mem_reverse.2 (List.mem_map_of_mem (f := fun f => (f.1, f.2.literal)) hx))
      rw [List.map_reverse, List.nodup_reverse, List.map_map]
      exact hn

variable {α : Type} {f : RecordFields} {name : String} {j : Json} {a : α} {d : Decoder α}

theorem Holds.required (h : f.Holds name j) (hd : d f.depth j.literal = some a) :
    f.required name d = some a := by
  rw [RecordFields.required, h.given, Option.bind_some, hd]

theorem Holds.optional (h : f.Holds name j) (hd : d f.depth j.literal = some a) (default : α) :
    f.optional name d default = some a := by
  rw [RecordFields.optional, h.given]
  exact hd

end RecordFields

namespace Vertex

variable {d : Nat} {v : Vertex} {value : Json}

theorem decodeValue_literal (h : (Json.obj [("value", value)]).Readable d) (ho : value.Ordered) :
    decodeValue d (Json.obj [("value", value)]).literal = some value := by
  obtain ⟨f, hf, hgiven⟩ := RecordFields.exists_given .json ["value"] h rfl (by decide)
  have hvalue := hgiven _ (.head _)
  rw [decodeValue, hf, Option.bind_eq_bind, Option.bind_some]
  exact hvalue.required (Json.decode_of_ordered hvalue.readable ho)

theorem ofLiteral?_literal (h : v.toJson.Readable d)
    (ho : ∀ p ∈ v.properties.entries, ∀ j ∈ p.2, j.Ordered) : ofLiteral? d v.toJson.literal = some v := by
  obtain ⟨f, hf, hgiven⟩ := RecordFields.exists_given
    .json ["id", "label", "properties"] h rfl (by decide)
  have hid := (hgiven _ (.head _)).required (Decoder.word64_literal v.id.word)
  have hlabel := (hgiven _ (.tail _ (.head _))).required (Decoder.string_literal v.label)
  have hproperties := hgiven _ (.tail _ (.tail _ (.head _)))
  have hread := Decoder.dictionary_literal _ rfl hproperties.readable fun p hp k hk =>
    Decoder.list_literal hk fun j hj _ hk => decodeValue_literal hk (ho p hp j hj)
  have hproperties := hproperties.optional hread .empty
  rw [ofLiteral?, toJson, hf]
  simp only [Option.bind_eq_bind, Option.bind_some, hid, hlabel, hproperties]
  rfl

theorem whole_toJson (h : ∀ p ∈ v.properties.entries, ∀ j ∈ p.2, j.Whole) : v.toJson.Whole := by
  have hvalues (p) (hp : p ∈ v.properties.entries) :
      (Json.ofList (fun value => .obj [("value", value)]) p.2).Whole :=
    Json.whole_ofList fun j hj => .obj (List.forall_mem_singleton.2 (h p hp j hj))
  refine .obj fun f hf => ?_
  rcases hf with _ | ⟨_, _ | ⟨_, _ | ⟨_, ⟨⟩⟩⟩⟩
  · exact .natural
  · exact .str
  · exact .obj (List.forall_mem_map.2 hvalues)

end Vertex

namespace Edge

variable {d : Nat} {e : Edge}

theorem ofLiteral?_literal (h : e.toJson.Readable d) (ho : ∀ p ∈ e.properties.entries, p.2.Ordered) :
    ofLiteral? d e.toJson.literal = some e := by
  obtain ⟨f, hf, hgiven⟩ := RecordFields.exists_given
    .json ["id", "label", "outV", "inV", "properties"] h rfl (by decide)
  have hid := (hgiven _ (.head _)).required (Decoder.word64_literal e.id.word)
  have hlabel := (hgiven _ (.tail _ (.head _))).required (Decoder.string_literal e.label)
  have htail := (hgiven _ (.tail _ (.tail _ (.head _)))).required (Decoder.word64_literal e.tail.word)
  have hhead := (hgiven _ (.tail _ (.tail _ (.tail _ (.head _))))).required
    (Decoder.word64_literal e.head.word)
  have hproperties := hgiven _ (.tail _ (.tail _ (.tail _ (.tail _ (.head _)))))
  have hread := Decoder.dictionary_literal (d := Decoder.json) (m := e.properties) (fun j => j)
    (List.map_id' _).symm hproperties.readable fun p hp _ hk => Json.decode_of_ordered hk (ho p hp)
  have hproperties := hproperties.optional hread .empty
  rw [ofLiteral?, toJson, hf]
  simp only [Option.bind_eq_bind, Option.bind_some, hid, hlabel, htail, hhead, hproperties]
  rfl

theorem whole_toJson (h : ∀ p ∈ e.properties.entries, p.2.Whole) : e.toJson.Whole := by
  refine .obj fun f hf => ?_
  rcases hf with _ | ⟨_, _ | ⟨_, _ | ⟨_, _ | ⟨_, _ | ⟨_, ⟨⟩⟩⟩⟩⟩⟩
  · exact .natural
  · exact .str
  · exact .natural
  · exact .natural
  · exact .obj h

end Edge

namespace GraphDump

variable {d : Nat} {g : GraphDump}

def payloads (g : GraphDump) : List Json :=
  (g.vertices.flatMap fun v => v.properties.entries.flatMap (·.2)) ++
    g.edges.flatMap fun e => e.properties.entries.map (·.2)

theorem mem_payloads_of_vertex {v : Vertex} (hv : v ∈ g.vertices) {p : String × List Json}
    (hp : p ∈ v.properties.entries) {j : Json} (hj : j ∈ p.2) : j ∈ g.payloads :=
  List.mem_append_left _ (List.mem_flatMap.2 ⟨v, hv, List.mem_flatMap.2 ⟨p, hp, hj⟩⟩)

theorem mem_payloads_of_edge {e : Edge} (he : e ∈ g.edges) {p : String × Json}
    (hp : p ∈ e.properties.entries) : p.2 ∈ g.payloads :=
  List.mem_append_right _ (List.mem_flatMap.2 ⟨e, he, List.mem_map_of_mem hp⟩)

theorem ofLiteral?_literal (h : g.toJson.Readable d) (ho : ∀ j ∈ g.payloads, j.Ordered) :
    ofLiteral? d g.toJson.literal = some g := by
  obtain ⟨f, hf, hgiven⟩ := RecordFields.exists_given
    .json ["vertices", "edges"] h rfl (by decide)
  have hvertices := hgiven _ (.head _)
  have hedges := hgiven _ (.tail _ (.head _))
  have hvertices := hvertices.optional (Decoder.list_literal hvertices.readable fun v hv _ hk =>
    Vertex.ofLiteral?_literal hk fun p hp j hj => ho j (mem_payloads_of_vertex hv hp hj)) []
  have hedges := hedges.optional (Decoder.list_literal hedges.readable fun e he _ hk =>
    Edge.ofLiteral?_literal hk fun p hp => ho p.2 (mem_payloads_of_edge he hp)) []
  rw [ofLiteral?, toJson, hf]
  simp only [Option.bind_eq_bind, Option.bind_some, hvertices, hedges]
  rfl

theorem whole_toJson (h : ∀ j ∈ g.payloads, j.Whole) : g.toJson.Whole := by
  refine .obj fun f hf => ?_
  rcases hf with _ | ⟨_, _ | ⟨_, ⟨⟩⟩⟩
  · exact Json.whole_ofList fun v hv =>
      Vertex.whole_toJson fun p hp j hj => h j (mem_payloads_of_vertex hv hp hj)
  · exact Json.whole_ofList fun e he =>
      Edge.whole_toJson fun p hp => h p.2 (mem_payloads_of_edge he hp)

theorem parse?_text (hw : ∀ j ∈ g.payloads, j.Whole) (ho : ∀ j ∈ g.payloads, j.Ordered)
    (hd : g.toJson.depth < 128) {text : String} (ht : text ∈ [g.toJson.compact, g.toJson.pretty]) :
    ofLiteral?.parse? text = some g := by
  have hle : g.toJson.depth ≤ maxDepth := by
    rw [maxDepth]
    omega
  have hread := (whole_toJson hw).readable hle
  have hliteral : Literal.ofString? text = some g.toJson.literal := by
    rcases List.mem_pair.1 ht with rfl | rfl
    · exact Json.ofString?_compact hread
    · exact Json.ofString?_pretty hread
  rw [Decoder.parse?, hliteral, Option.bind_some, ofLiteral?_literal hread ho]

end GraphDump

namespace InMemoryStore

/-- What is read from the text of a graph is a store of the graph. The values of properties are
documents as they are held, with the fields of an object by key. -/
theorem written_graph_reads_back {g : GraphDump} (hids : (g.vertices.map (·.id)).Nodup)
    (hends : ∀ e ∈ g.edges, e.tail ∈ g.vertices.map (·.id) ∧ e.head ∈ g.vertices.map (·.id))
    (ho : ∀ j ∈ g.payloads, j.Ordered) (hw : ∀ j ∈ g.payloads, j.Whole) (hd : g.toJson.depth < 128) :
    ∃ s, (∀ text ∈ [g.toJson.compact, g.toJson.pretty], ofString text = .ok s) ∧
      s.vertices.toList = g.vertices ∧
      (∀ offset limit,
        s.toStore.vertices offset limit = .ok ((g.vertices.drop offset).take limit)) ∧
      ∀ id label, s.toStore.outEdges id label
        = .ok (g.edges.filter fun e => e.tail == id && label.all (e.label == ·)) := by
  obtain ⟨s, hs, hholds⟩ := exists_ofDump hids hends
  refine ⟨s, fun text ht => ?_, hholds.vertices_eq, fun offset limit => ?_, fun id label => ?_⟩
  · rw [ofString, GraphDump.parse?_text hw ho hd ht]
    exact hs
  · show Except.ok (s.page offset limit) = _
    rw [page, hholds.vertices_eq]
  · show Except.ok (s.outEdges id label) = _
    rw [hholds.outEdges_eq]

/-- A file under the last name with two values, one of them nested, and an edge back to it. -/
def nestedValues : GraphDump where
  vertices := [
    ⟨⟨0xFFFFFFFFFFFFFFFF⟩, fileLabel, .ofList [("lines", [
      .arr [.obj [("from", .num (.natural 1)), ("to", .null)]], .num (.ofInt (-6))])]⟩,
    .bare ⟨3⟩ codeLabel]
  edges := [
    ⟨⟨0⟩, "holds", ⟨0xFFFFFFFFFFFFFFFF⟩, ⟨3⟩, .ofList [("at", .str "1\n")]⟩,
    .bare ⟨1⟩ "within" ⟨3⟩ ⟨0xFFFFFFFFFFFFFFFF⟩]

theorem written_graph_reads_back_nestedValues :
    (∀ j ∈ nestedValues.payloads, j.Ordered ∧ j.Whole) ∧
    ∃ s, ofString nestedValues.toJson.compact = .ok s ∧ s.vertices.toList = nestedValues.vertices ∧
      s.toStore.outEdges ⟨3⟩ none = .ok [.bare ⟨1⟩ "within" ⟨3⟩ ⟨0xFFFFFFFFFFFFFFFF⟩] := by
  have hpayloads : nestedValues.payloads = [
      .arr [.obj [("from", .num (.natural 1)), ("to", .null)]], .num (.ofInt (-6)), .str "1\n"] := rfl
  have ho : ∀ j ∈ nestedValues.payloads, j.Ordered := by
    rw [hpayloads]
    simp only [List.forall_mem_cons]
    refine ⟨.arr (List.forall_mem_singleton.2 (.obj (List.pairwise_pair.2 (by decide)) ?_)), .num,
      .str, nofun⟩
    exact List.forall_mem_cons.2 ⟨.num, List.forall_mem_singleton.2 .null⟩
  have hw : ∀ j ∈ nestedValues.payloads, j.Whole := by
    rw [hpayloads]
    simp only [List.forall_mem_cons]
    refine ⟨.arr (List.forall_mem_singleton.2 (.obj ?_)), .negative, .str, nofun⟩
    exact List.forall_mem_cons.2 ⟨.natural, List.forall_mem_singleton.2 .null⟩
  obtain ⟨s, hread, hvertices, -, hedges⟩ :=
    written_graph_reads_back (by decide) (by decide) ho hw (by decide)
  exact ⟨fun j hj => ⟨ho j hj, hw j hj⟩, s, hread _ (.head _), hvertices, hedges ⟨3⟩ none⟩

end InMemoryStore

end CodeGraph
