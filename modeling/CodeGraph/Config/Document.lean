import CodeGraph.Config.Options
import CodeGraph.Json.Decoder
import CodeGraph.Text.FileName
import CodeGraph.Toml.Reader

/-!
# Options as documents

Options are read from JSON or TOML by one decoder. Every field has a default, so an empty document
gives the default options. `EngineOptions.toJson` writes all fields; the output target is written by
the text that reads back as it.
-/

namespace CodeGraph

/-- In TOML a choice is marked by an empty table or array, and spare items are passed over. -/
def Dialect.toml : Dialect where
  marksChoice
    | .obj [] => true
    | .arr [] => true
    | _ => false
  allowsMore := true

namespace GremlinOptions

def ofLiteral? (dialect : Dialect) : Decoder GremlinOptions := fun depth l => do
  let f ← RecordFields.ofLiteral? dialect ["host", "port", "batchSize"] depth l
  let host ← f.optional "host" Decoder.string default.host
  let port ← f.optional "port" (Decoder.natural (UInt16.size - 1)) default.port
  let batchSize ← f.optional "batchSize" (Decoder.natural (UInt64.size - 1)) default.batchSize
  pure ⟨host, port, batchSize⟩

def toJson (o : GremlinOptions) : Json :=
  .obj [("host", .str o.host), ("port", .nat o.port), ("batchSize", .nat o.batchSize)]

end GremlinOptions

namespace CacheOptions

def ofLiteral? (dialect : Dialect) : Decoder CacheOptions := fun depth l => do
  let f ← RecordFields.ofLiteral? dialect ["capacity"] depth l
  let capacity ← f.optional "capacity" (Decoder.option (Decoder.natural (UInt64.size - 1))) none
  pure ⟨capacity⟩

def toJson (o : CacheOptions) : Json := .obj [("capacity", .ofOption .nat o.capacity)]

end CacheOptions

namespace DatabaseOptions

def ofLiteral? (dialect : Dialect) : Decoder DatabaseOptions := fun depth l => do
  let f ← RecordFields.ofLiteral? dialect ["gremlin", "cache"] depth l
  let gremlin ← f.optional "gremlin" (GremlinOptions.ofLiteral? dialect) .default
  let cache ← f.optional "cache" (CacheOptions.ofLiteral? dialect) ⟨none⟩
  pure ⟨gremlin, cache⟩

def toJson (o : DatabaseOptions) : Json :=
  .obj [("gremlin", o.gremlin.toJson), ("cache", o.cache.toJson)]

end DatabaseOptions

namespace LoggingOptions

def ofLiteral? (dialect : Dialect) : Decoder LoggingOptions := fun depth l => do
  let f ← RecordFields.ofLiteral? dialect ["level", "targets"] depth l
  let level ← f.optional "level" Decoder.string default.level
  let targets ← f.optional "targets" (Decoder.dictionary Decoder.string) .empty
  pure ⟨level, targets⟩

def toJson (o : LoggingOptions) : Json :=
  .obj [
    ("level", .str o.level),
    ("targets", .obj (o.targets.entries.map fun (target, level) => (target, .str level)))]

end LoggingOptions

namespace EngineOptions

def ofLiteral? (dialect : Dialect) : Decoder EngineOptions := fun depth l => do
  let names := ["database", "formatter", "style", "output", "logging"]
  let f ← RecordFields.ofLiteral? dialect names depth l
  let database ← f.optional "database" (DatabaseOptions.ofLiteral? dialect) .default
  let formatter ← f.optional "formatter" (Decoder.choice dialect FormatterKind.names) .plain
  let style ← f.optional "style" (Decoder.choice dialect OutputStyle.names) .json
  let output ← f.optional "output" Decoder.string "stdout"
  let logging ← f.optional "logging" (LoggingOptions.ofLiteral? dialect) .default
  pure ⟨database, formatter, style, .ofText output, logging⟩

def toJson (o : EngineOptions) : Json :=
  .obj [
    ("database", o.database.toJson),
    ("formatter", .str o.formatter.name),
    ("style", .str o.style.name),
    ("output", .str o.output.text),
    ("logging", o.logging.toJson)]

/-- Decoded options that an engine can run with. -/
def validated : Option EngineOptions → Except Error EngineOptions
  | none => .error (.parse "not options of an engine")
  | some o => do
    o.database.validate
    pure o

def ofJsonText (s : String) : Except Error EngineOptions :=
  validated ((ofLiteral? .json).parse? s)

def ofTomlText (s : String) : Except Error EngineOptions :=
  validated ((Toml.parse? s).bind (ofLiteral? .toml maxDepth))

/-- Reads options from a file of a name; the extension says in which format they are. -/
def load (name : String) (contents : Except String String) : Except Error EngineOptions :=
  match contents with
  | .error reason => .error (.io reason)
  | .ok text =>
    match FileName.extension? name with
    | some "toml" => ofTomlText text
    | some "json" => ofJsonText text
    | _ => .error (.configuration ("unsupported config file '" ++ name ++ "'"))

end EngineOptions

end CodeGraph
