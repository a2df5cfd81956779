import DocTypes.Inference.Options

/-!
The configuration of the engine, and what makes one invalid.
-/
namespace DocTypes

structure EngineConfig where
  inference : InferenceOptions := {}
  /-- What the names of the log files begin with. -/
  logComponent : Text := "docsync"
  logToStderr : Bool := false
  logDir : Option Text := none
  /-- Shorten the names in doc comments once the types of properties are right. -/
  importNames : Bool := false
  deriving DecidableEq

inductive ConfigError where
  | noStrategy
  /-- A name of a method or marker that is blank. -/
  | blankName (name : Text)
  | blankLogComponent
  | notJson
  | unreadable
  deriving DecidableEq

namespace ConfigError

/-- A blank character as quoted text shows it: the plain space as it is, any other by an
escape. -/
def showBlank (c : Char) : Text :=
  if c = ' ' then [c]
  else if c = '\t' then "\\t"
  else if c = '\n' then "\\n"
  else if c = '\r' then "\\r"
  else "\\u\x7b" ++ Nat.toDigits 16 c.toNat ++ "\x7d"

def message : ConfigError → Text
  | .noStrategy =>
    "Invalid configuration: inference.strategies must enable at least one strategy"
  | .blankName name =>
    "Invalid configuration: empty method name or marker \"" ++ name.flatMap showBlank ++
      "\" in inference options"
  | .blankLogComponent => "Invalid configuration: log_component must not be empty"
  | .notJson => "The configuration is not in the expected JSON form"
  | .unreadable => "The configuration cannot be read as text"

end ConfigError

namespace EngineConfig

instance : Inhabited EngineConfig := ⟨{}⟩

/-- What is wrong with a configuration: the first of its faults. -/
def fault? (c : EngineConfig) : Option ConfigError :=
  if c.inference.strategies.isEmpty then some .noStrategy
  else
    let names := c.inference.instantiatingMethods ++ c.inference.instantiationMarkers
    match names.find? Text.isAllBlank with
    | some name => some (.blankName name)
    | none => if Text.isAllBlank c.logComponent then some .blankLogComponent else none

def validated (c : EngineConfig) : Except ConfigError EngineConfig :=
  match c.fault? with
  | some e => .error e
  | none => .ok c

end EngineConfig
end DocTypes
