import CodeGraph.Proofs.QueryIsolation
import CodeGraph.Proofs.Views

/-!
# Records read back

A record in JSON is an object of three fields, which is read back from either layout
(`QueryResult.parse?_record`). The console's record nests a result that is a document and keeps any
other as a text. A rendering of a view in JSON is a document, the same one in both layouts; a rendering
in pipes is none, and neither is the text of a query that failed, as no token begins with its first
letter (`Engine.parse?_failed`).
-/

namespace CodeGraph

namespace QueryResult

variable (r : QueryResult)

/-- The document that the record of a query is read as: its three fields, sorted. -/
def document (result : Json) : Json :=
  .obj [("milliseconds", .num (.natural r.milliseconds)), ("name", .str r.name), ("result", result)]

theorem readable_recordJson {d : Nat} {result : Json} (h : result.Readable d) :
    (r.recordJson result).Readable (d + 1) := by
  refine .obj fun f hf => ?_
  simp only [List.mem_cons, List.not_mem_nil, or_false] at hf
  rcases hf with rfl | rfl | rfl
  · exact .str
  · exact h
  · exact .num (Number.readsBack_natural _)

theorem normal_recordJson (result : Json) :
    (r.recordJson result).normal = r.document result.normal := by
  rw [recordJson, Json.normal]
  have hname : "result" ≠ "name" ∧ ¬ "result" < "name" := by decide
  have hfirst : "milliseconds" < "name" := by decide
  simp only [Json.normalFields, Json.normal, Json.object, Dictionary.ofList, List.foldl_cons,
    List.foldl_nil, Dictionary.insert, Dictionary.empty, Dictionary.place, if_neg hname.2,
    if_neg hname.1, if_pos hfirst, document]

variable {r} {result : Json}

theorem parse?_pretty (h : result.Readable 126) :
    Json.parse? (r.recordJson result).pretty = some (r.document result.normal) :=
  (Json.parse?_pretty (r.readable_recordJson h)).trans (congrArg some (r.normal_recordJson result))

theorem parse?_compact (h : result.Readable 126) :
    Json.parse? (r.recordJson result).compact = some (r.document result.normal) :=
  (Json.parse?_compact (r.readable_recordJson h)).trans (congrArg some (r.normal_recordJson result))

theorem record_console_of_parse? {j : Json} (h : Json.parse? r.result = some j) :
    FormatterKind.consoleJson.record r = (r.recordJson j).pretty := by
  rw [FormatterKind.record, nested, h, Option.getD_some]

theorem parse?_console_text (h : Json.parse? r.result = none) :
    Json.parse? (FormatterKind.consoleJson.record r) = some (r.document (.str r.result)) := by
  rw [FormatterKind.record, nested, h, Option.getD_none, parse?_pretty .str]
  rfl

def ofView (v : TableView) (style : OutputStyle) (name : String) (milliseconds : UInt64) : QueryResult :=
  ⟨name, v.render style, milliseconds, false⟩

variable (v : TableView) (name : String) (milliseconds : UInt64)

theorem record_console_json :
    FormatterKind.consoleJson.record (ofView v .json name milliseconds)
      = ((ofView v .json name milliseconds).recordJson v.toJson).pretty :=
  record_console_of_parse? v.parse?_json

theorem record_console_jsonMin :
    FormatterKind.consoleJson.record (ofView v .jsonMin name milliseconds)
      = FormatterKind.consoleJson.record (ofView v .json name milliseconds) := by
  rw [record_console_json, record_console_of_parse? (r := ofView v .jsonMin _ _) v.parse?_jsonMin]
  simp only [recordJson, ofView]

theorem parse?_console_json :
    Json.parse? (FormatterKind.consoleJson.record (ofView v .json name milliseconds))
      = some ((ofView v .json name milliseconds).document v.toJson) := by
  rw [record_console_json, parse?_pretty (v.readable_toJson 123), v.normal_toJson]

end QueryResult

namespace Engine

variable {e e' : Engine} {q : Queryable} {milliseconds : Nat} {w w' : World} {r : QueryResult}

theorem parse?_failed (name : String) (milliseconds : Nat) (err : Error) :
    Json.parse? (resultOf name milliseconds (.error err)).result = none := by
  refine Json.parse?_eq_none_of_word [] 'E' nofun ?_ rfl rfl (by decide)
  show ∃ more, ("Error executing query \"" ++ name ++ "\": " ++ err.message).toList = _
  simp only [String.toList_append]
  exact ⟨_, rfl⟩

theorem eq_of_run_write {e₀ : Engine} {result : QueryResult} {w₁ : World}
    (h : ((do
      put e
      let sink ← e.sink.writeLine (e.formatter.record result)
      put { e with sink }
      return result : EngineM QueryResult).run.run e₀).run w₁ = ((.ok r, e'), w')) :
    r = result := by
  rw [run_bind _ rfl] at h
  rcases hline : e.sink.writeLine (e.formatter.record result) with err | sink
  all_goals rw [hline] at h; cases h
  rfl

theorem exists_resultOf (h : ((execute q milliseconds).run.run e).run w = ((.ok r, e'), w')) :
    ∃ came, r = resultOf q.name milliseconds came := by
  rcases hcame : (outcome e.style q).run.run w with ⟨came, w₁⟩
  have hran : ((ofWorldM (outcome e.style q).run).run.run e).run w = ((.ok came, e), w₁) :=
    congrArg (fun x : Except Error String × World => ((Except.ok x.1, e), x.2)) hcame
  refine ⟨came, ?_⟩
  unfold execute at h
  rw [run_bind _ (rfl : (state.run.run e).run w = ((.ok e, e), w)), run_bind _ hran] at h
  cases came with
  | ok text =>
    rw [if_neg (show ¬ (Except.ok text : Except Error String).toOption.isNone = true from
      Bool.false_ne_true)] at h
    exact eq_of_run_write h
  | error err =>
    rw [if_pos (show (Except.error err : Except Error String).toOption.isNone = true from rfl),
      run_bind _ rfl] at h
    exact eq_of_run_write h

theorem exists_error (h : ((execute q milliseconds).run.run e).run w = ((.ok r, e'), w'))
    (hr : r.failed = true) : ∃ err, r = resultOf q.name milliseconds (.error err) := by
  obtain ⟨came, rfl⟩ := exists_resultOf h
  cases came with
  | ok text => cases hr
  | error err => exact ⟨err, rfl⟩

end Engine

namespace FormatterKind

/-- Records in JSON are faithful. Either layout of a result is read back as its name, its text and its
time, and nothing else. For the console, a view makes the same record from both of its renderings in
JSON, in which a document is nested that decodes to the view, while its rendering in pipes is kept as the
text that it is, and so is the text of a query that an engine has run and that failed. -/
theorem records_read_back :
    (∀ r : QueryResult,
      Json.parse? (json.record r) = some (r.document (.str r.result)) ∧
      Json.parse? (jsonMin.record r) = some (r.document (.str r.result))) ∧
    (∀ (v : TableView) (name : String) (milliseconds : UInt64),
      let shown style := QueryResult.ofView v style name milliseconds
      consoleJson.record (shown .json) = consoleJson.record (shown .jsonMin) ∧
      (∃ j : Json, j.isObject = true ∧ TableView.ofLiteral?.ofJson? j = some v ∧
        Json.parse? (consoleJson.record (shown .json)) = some ((shown .json).document j)) ∧
      Json.parse? (consoleJson.record (shown .markdown))
        = some ((shown .markdown).document (.str (v.render .markdown)))) ∧
    (∀ (q : Queryable) (milliseconds : Nat) (e e' : Engine) (w w' : World) (r : QueryResult),
      ((Engine.execute q milliseconds).run.run e).run w = ((.ok r, e'), w') → r.failed = true →
      Json.parse? (consoleJson.record r) = some (r.document (.str r.result))) := by
  refine ⟨fun r => ⟨QueryResult.parse?_pretty .str, QueryResult.parse?_compact .str⟩,
    fun v name milliseconds => ⟨(QueryResult.record_console_jsonMin ..).symm,
      ⟨v.toJson, rfl, v.ofJson?_toJson, QueryResult.parse?_console_json ..⟩,
      QueryResult.parse?_console_text v.parse?_markdown⟩,
    fun q milliseconds e e' w w' r h hr => ?_⟩
  obtain ⟨err, rfl⟩ := Engine.exists_error h hr
  exact QueryResult.parse?_console_text (Engine.parse?_failed ..)

def quotedFailure : Queryable := ⟨"\"a\"", throw (.parse "\"\x7d")⟩

theorem records_read_back_quotedFailure :
    ∃ s r e w, InMemoryStore.Holds Query.mutualFiles s ∧
      ((Engine.execute quotedFailure 3).run.run (.new .json .consoleJson .empty)).run
        (.new ⟨.default, s.toStore⟩ ⟨"plain", [], []⟩) = ((.ok r, e), w) ∧ r.failed = true ∧
      Json.parse? (consoleJson.record r) = some (r.document (.str r.result)) := by
  obtain ⟨s, hs⟩ := InMemoryStore.exists_holds (d := Query.mutualFiles) (by decide) (by decide)
  have hcame : (Engine.outcome .json quotedFailure).run.run (.new ⟨.default, s.toStore⟩ ⟨"plain", [], []⟩)
      = (.error (.parse "\"\x7d"), .new ⟨.default, s.toStore⟩ ⟨"plain", [], []⟩) := rfl
  obtain ⟨w, hrun, -⟩ := Engine.run_execute (e := .new .json .consoleJson .empty) rfl 3 hcame
  exact ⟨s, _, _, w, hs, hrun, rfl, records_read_back.2.2 _ _ _ _ _ _ _ hrun rfl⟩

end FormatterKind

end CodeGraph
