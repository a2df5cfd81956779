import DocTypes.Config
import DocTypes.Json.Reader

/-!
The configuration in JSON. Every field may be missing and has its default then.
-/
namespace DocTypes

namespace StrategyKind

def jsonName : StrategyKind → Text
  | constructorParam => "constructor_param"
  | allAssign => "all_assign"

def ofJson? (v : JsonValue) : Option StrategyKind := do
  let name ← v.caseName?
  [constructorParam, allAssign].find? (·.jsonName == name)

end StrategyKind

namespace InferenceOptions

def ofJson? (v : JsonValue) : Option InferenceOptions := do
  let names : List Text := ["strategies", "instantiating_methods", "instantiation_markers"]
  let texts := JsonValue.list? JsonValue.text?
  match ← JsonValue.fields? names v with
  | [strategies, methods, markers] =>
    let base : InferenceOptions := {}
    return ⟨← JsonValue.fieldOr base.strategies (JsonValue.list? StrategyKind.ofJson?) strategies,
      ← JsonValue.fieldOr base.instantiatingMethods texts methods,
      ← JsonValue.fieldOr base.instantiationMarkers texts markers⟩
  | _ => none

def toJson (o : InferenceOptions) : JsonValue :=
  let texts (ts : List Text) : JsonValue := .array (ts.map .ofText)
  .ofMembers
    [("strategies", texts (o.strategies.map (·.jsonName))),
     ("instantiating_methods", texts o.instantiatingMethods),
     ("instantiation_markers", texts o.instantiationMarkers)]

end InferenceOptions

namespace EngineConfig

def ofJson? (v : JsonValue) : Option EngineConfig := do
  let names : List Text := ["inference", "log_component", "log_to_stderr", "log_dir", "import_names"]
  match ← JsonValue.fields? names v with
  | [inference, component, toStderr, dir, importNames] =>
    let base : EngineConfig := {}
    return ⟨← JsonValue.fieldOr base.inference InferenceOptions.ofJson? inference,
      ← JsonValue.fieldOr base.logComponent JsonValue.text? component,
      ← JsonValue.fieldOr base.logToStderr JsonValue.bool? toStderr,
      ← JsonValue.fieldOr base.logDir (JsonValue.nullOr JsonValue.text?) dir,
      ← JsonValue.fieldOr base.importNames JsonValue.bool? importNames⟩
  | _ => none

def toJson (c : EngineConfig) : JsonValue :=
  .ofMembers
    [("inference", c.inference.toJson), ("log_component", .ofText c.logComponent),
     ("log_to_stderr", .bool c.logToStderr),
     ("log_dir", match c.logDir with | some dir => .ofText dir | none => .null),
     ("import_names", .bool c.importNames)]

def ofJsonText (s : Text) : Except ConfigError EngineConfig :=
  match (JsonValue.read s).bind ofJson? with
  | some c => c.validated
  | none => .error .notJson

/-- A configuration file by its bytes, if there is one. -/
def ofFile (bytes : Option ByteArray) : Except ConfigError EngineConfig :=
  match bytes.bind String.fromUTF8? with
  | some s => ofJsonText s.toList
  | none => .error .unreadable

end EngineConfig
end DocTypes
