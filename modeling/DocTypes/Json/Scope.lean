import DocTypes.Json.Reader
import DocTypes.Name.Scope

/-!
Name scopes in JSON.
-/
namespace DocTypes.NameScope

def importsOfJson? : JsonValue → Option (OrderedMap Text Text)
  | .object members => do
    let entries ← members.mapM fun m => do return (← m.1, ← m.2.text?)
    return .ofList entries
  | _ => none

/-- File, namespace and imports. As an array all three are required; as an object only the imports
are. -/
def ofJson? (v : JsonValue) : Option NameScope := do
  match v, ← JsonValue.fields? ["file", "namespace", "uses"] v with
  | .array _, [none, _, _] => none
  | .array _, [_, none, _] => none
  | _, [file, home, some imports] =>
    return ⟨← JsonValue.fieldOr none (JsonValue.nullOr JsonValue.text?) file,
      ← JsonValue.fieldOr none (JsonValue.nullOr JsonValue.text?) home, ← importsOfJson? imports⟩
  | _, _ => none

def ofJsonText? (s : Text) : Option NameScope := (JsonValue.read s).bind ofJson?

end DocTypes.NameScope
