import DocTypes.Text.Basic

/-!
JSON values.
-/
namespace DocTypes

/-- A JSON value. A string is `none` when an escape in it stands for half a surrogate pair: such a
string may be passed over and cannot be used. Members keep their order and may repeat. -/
inductive JsonValue where
  | null
  | bool (b : Bool)
  | number (literal : Text)
  | string (s : Option Text)
  | array (items : List JsonValue)
  | object (members : List (Option Text × JsonValue))

namespace JsonValue

instance : Inhabited JsonValue := ⟨.null⟩

def ofText (s : Text) : JsonValue := .string (some s)

/-- An object with the given members. -/
def ofMembers (members : List (Text × JsonValue)) : JsonValue :=
  .object (members.map fun m => (some m.1, m.2))

def text? : JsonValue → Option Text
  | .string s => s
  | _ => none

def bool? : JsonValue → Option Bool
  | .bool b => some b
  | _ => none

/-- A value that may be null instead. -/
def nullOr {α : Type} (decode : JsonValue → Option α) : JsonValue → Option (Option α)
  | .null => some none
  | v => (decode v).map some

def list? {α : Type} (decode : JsonValue → Option α) : JsonValue → Option (List α)
  | .array items => items.mapM decode
  | _ => none

/-- A case of an enumeration: its name, or an object that gives it null. -/
def caseName? : JsonValue → Option Text
  | .string s => s
  | .object [(name, .null)] => name
  | _ => none

/-- The value of the member `name`, which may stand there once only. -/
def member? (members : List (Option Text × JsonValue)) (name : Text) :
    Option (Option JsonValue) :=
  match members.filter (·.1 == some name) with
  | [] => some none
  | [m] => some (some m.2)
  | _ => none

/-- The values of the fields of a record, where given. A record is an object, whose other members
are passed over, or an array of the values in order, the last of which may be missing. -/
def fields? (names : List Text) : JsonValue → Option (List (Option JsonValue))
  | .object members =>
    if members.any (·.1.isNone) then none else names.mapM (member? members)
  | .array items =>
    if names.length < items.length then none
    else some (names.zipIdx.map fun (_, i) => items[i]?)
  | _ => none

/-- The value of a field, or its default where it is not given. -/
def fieldOr {α : Type} (fallback : α) (decode : JsonValue → Option α) :
    Option JsonValue → Option α
  | none => some fallback
  | some v => decode v

end JsonValue
end DocTypes
