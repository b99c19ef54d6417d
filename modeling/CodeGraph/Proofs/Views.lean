import CodeGraph.Engine.View
import CodeGraph.Proofs.ReadBack

/-!
# Views read back

A view in JSON is an object of lists of texts, so it is readable and in normal form, and its literal is
that of the document (`TableView.literal_toJson`). Hence either layout is read as the same document,
and the decoder of views gives back the view (`TableView.json_reads_back`). A view in pipes is no
document: its first word begins with a pipe (`TableView.parse?_markdown`).
-/

namespace CodeGraph

namespace Decoder

variable {α : Type} {d : Decoder α} {lit : α → Literal} {depth : Nat}

theorem list_map {as : List α} (h : ∀ a ∈ as, d depth (lit a) = some a) :
    list d (depth + 1) (.arr (as.map lit)) = some as := by
  rw [list, List.mapM_map]
  induction as with
  | nil => rfl
  | cons a as ih =>
    obtain ⟨ha, has⟩ := List.forall_mem_cons.1 h
    rw [List.mapM_cons, ih has]
    simp [ha]

theorem string_units (s : String) : string depth (.str (Text.unitsOf s)) = some s :=
  Text.ofUnits?_unitsOf s

end Decoder

namespace Json

theorem itemLiterals_eq (items : List Json) : itemLiterals items = items.map literal := by
  induction items with
  | nil => rfl
  | cons j js ih => rw [itemLiterals, ih, List.map_cons]

theorem normalItems_eq (items : List Json) : normalItems items = items.map normal := by
  induction items with
  | nil => rfl
  | cons j js ih => rw [normalItems, ih, List.map_cons]

theorem ofItems_eq (items : List Json) : Literal.ofItems items = items.map Literal.ofJson := by
  induction items with
  | nil => rfl
  | cons j js ih => rw [Literal.ofItems, ih, List.map_cons]

section
variable {α : Type} {f : α → Json} {d : Nat}

theorem readable_ofList (h : ∀ a, Readable d (f a)) (as : List α) : Readable (d + 1) (ofList f as) :=
  .arr fun j hj => by
    obtain ⟨a, -, rfl⟩ := List.mem_map.1 hj
    exact h a

theorem literal_ofList (as : List α) :
    (ofList f as).literal = .arr (as.map fun a => (f a).literal) := by
  rw [ofList, literal, itemLiterals_eq, List.map_map]
  rfl

theorem ofJson_ofList (as : List α) :
    Literal.ofJson (ofList f as) = .arr (as.map fun a => Literal.ofJson (f a)) := by
  rw [ofList, Literal.ofJson, ofItems_eq, List.map_map]
  rfl

theorem normal_ofList (h : ∀ a, (f a).normal = f a) (as : List α) :
    (ofList f as).normal = ofList f as := by
  rw [ofList, normal, normalItems_eq, List.map_map]
  exact congrArg arr (List.map_congr_left fun a _ => h a)

end

def textLiterals (ss : List String) : Literal := .arr (ss.map fun s => .str (Text.unitsOf s))

theorem normal_texts (ss : List String) : (ofList str ss).normal = ofList str ss :=
  normal_ofList (fun _ => rfl) ss

end Json

namespace TableView

variable (v : TableView)

/-- The rows have as many cells as there are headers. -/
def Rectangular : Prop := ∀ row ∈ v.rows, row.length = v.headers.length

instance : Decidable v.Rectangular :=
  inferInstanceAs (Decidable (∀ row ∈ v.rows, row.length = v.headers.length))

theorem readable_toJson (d : Nat) : v.toJson.Readable (d + 3) := by
  refine .obj fun f hf => ?_
  simp only [List.mem_cons, List.not_mem_nil, or_false] at hf
  rcases hf with rfl | rfl
  · exact Json.readable_ofList (fun _ => .str) v.headers
  · exact Json.readable_ofList (Json.readable_ofList fun _ => .str) v.rows

theorem normal_toJson : v.toJson.normal = v.toJson := by
  rw [toJson, Json.normal]
  have hlt : ¬ "rows" < "headers" := by decide
  have hne : "rows" ≠ "headers" := by decide
  simp only [Json.normalFields, Json.normal_texts, Json.normal_ofList Json.normal_texts, Json.object,
    Dictionary.ofList, List.foldl_cons, List.foldl_nil, Dictionary.insert, Dictionary.empty,
    Dictionary.place, if_neg hlt, if_neg hne]

/-- The literal of a view, whether it is written and read or taken from the document. -/
def literal : Literal :=
  .obj [
    (Text.unitsOf "headers", Json.textLiterals v.headers),
    (Text.unitsOf "rows", .arr (v.rows.map Json.textLiterals))]

theorem literal_toJson : v.toJson.literal = v.literal := by
  rw [toJson, Json.literal]
  simp only [Json.fieldLiterals, Json.literal_ofList]
  rfl

theorem ofJson_toJson : Literal.ofJson v.toJson = v.literal := by
  rw [toJson, Literal.ofJson]
  simp only [Literal.ofFields, Json.ofJson_ofList]
  rfl

theorem ofLiteral?_literal (d : Nat) : ofLiteral? (d + 3) v.literal = some v := by
  have hheaders : Decoder.list Decoder.string (d + 2) (Json.textLiterals v.headers) = some v.headers :=
    Decoder.list_map fun s _ => Decoder.string_units s
  have hrows : Decoder.list (Decoder.list Decoder.string) (d + 2)
      (.arr (v.rows.map Json.textLiterals)) = some v.rows :=
    Decoder.list_map fun row _ => Decoder.list_map fun s _ => Decoder.string_units s
  have hfields : RecordFields.ofLiteral? .json ["headers", "rows"] (d + 3) v.literal
      = some ⟨d + 2, [("rows", .arr (v.rows.map Json.textLiterals)),
          ("headers", Json.textLiterals v.headers)]⟩ := by
    simp only [literal, RecordFields.ofLiteral?, RecordFields.collect, Text.ofUnits?_unitsOf]
    rfl
  rw [ofLiteral?, hfields]
  simp only [RecordFields.required, Option.bind_eq_bind, Option.bind_some]
  rw [show List.lookup "headers" _ = some (Json.textLiterals v.headers) from rfl, Option.bind_some,
    hheaders, Option.bind_some, show List.lookup "rows" _ = some _ from rfl, Option.bind_some, hrows]
  rfl

theorem ofJson?_toJson : ofLiteral?.ofJson? v.toJson = some v := by
  rw [Decoder.ofJson?, ofJson_toJson]
  exact v.ofLiteral?_literal 124

theorem parse?_json : Json.parse? (v.render .json) = some v.toJson :=
  (Json.parse?_pretty (v.readable_toJson 124)).trans (congrArg some v.normal_toJson)

theorem parse?_jsonMin : Json.parse? (v.render .jsonMin) = some v.toJson :=
  (Json.parse?_compact (v.readable_toJson 124)).trans (congrArg some v.normal_toJson)

theorem decode_of_literal {s : String} (h : Literal.ofString? s = some v.toJson.literal) :
    ofLiteral?.parse? s = some v := by
  rw [Decoder.parse?, h, literal_toJson, Option.bind_some]
  exact v.ofLiteral?_literal 124

theorem decode_json : ofLiteral?.parse? (v.render .json) = some v :=
  v.decode_of_literal (Json.ofString?_pretty (v.readable_toJson 0))

theorem decode_jsonMin : ofLiteral?.parse? (v.render .jsonMin) = some v :=
  v.decode_of_literal (Json.ofString?_compact (v.readable_toJson 0))

/-- Nothing is lost in JSON: both layouts are the same document, which decodes to the headers and rows of
the view, and either text is decoded to them directly. -/
theorem json_reads_back (v : TableView) :
    (Json.parse? (v.render .json) = some v.toJson ∧ Json.parse? (v.render .jsonMin) = some v.toJson
      ∧ ofLiteral?.ofJson? v.toJson = some v)
    ∧ ofLiteral?.parse? (v.render .json) = some v ∧ ofLiteral?.parse? (v.render .jsonMin) = some v :=
  ⟨⟨v.parse?_json, v.parse?_jsonMin, v.ofJson?_toJson⟩, v.decode_json, v.decode_jsonMin⟩

/-! ### Pipes -/

def barred (s : String) : List Char := ' ' :: s.toList ++ [' ', '|']

theorem toList_pipeLine (cells : List String) :
    (pipeLine cells).toList = '|' :: cells.flatMap barred := by
  have hfold : ∀ front : String,
      (cells.foldl (fun line cell => line ++ " " ++ cell ++ " |") front).toList =
        front.toList ++ cells.flatMap barred := by
    induction cells with
    | nil => exact fun front => (List.append_nil _).symm
    | cons cell cells ih =>
      intro front
      rw [List.foldl_cons, ih, List.flatMap_cons]
      simp only [barred, String.toList_append, List.append_assoc, List.cons_append]
      rfl
  exact hfold "|"

theorem parse?_markdown : Json.parse? v.markdown = none := by
  refine Json.parse?_eq_none_of_word ['\n'] '|' (fun c hc => ?_) ?_ rfl rfl (by decide)
  · rw [List.mem_singleton.1 hc]
    rfl
  · simp only [markdown, String.toList_append, toList_pipeLine]
    exact ⟨_, rfl⟩

end TableView

end CodeGraph
