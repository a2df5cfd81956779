import DocTypes.Json.Reader
import DocTypes.StaticType.Basic

/-!
Static types in JSON: an object whose only member is named for the kind of type.
-/
namespace DocTypes

namespace Primitive

def jsonName : Primitive → Text
  | int => "Int"
  | float => "Float"
  | bool => "Bool"
  | string => "String"
  | callable => "Callable"
  | object => "Object"
  | mixed => "Mixed"
  | error => "Error"
  | null => "Null"

def ofJsonName? (name : Text) : Option Primitive :=
  [int, float, bool, string, callable, object, mixed, error, null].find? (·.jsonName == name)

end Primitive

namespace StaticType

/-- How many objects and arrays may be open at once. -/
def jsonDepth : Nat := 127

/-- Reads a type in which at most `depth` objects and arrays are open at once. -/
def ofJson? : Nat → JsonValue → Option StaticType
  | depth + 1, .object [(some kind, v)] =>
    if kind = "Named".toList then v.text?.map .named
    else if kind = "ArrayOf".toList then (ofJson? depth v).map .array
    else if kind = "Primitive".toList then
      match v, depth with
      | .object _, 0 => none
      | v, _ => (v.caseName?.bind Primitive.ofJsonName?).map .primitive
    else
      match v, depth with
      | .array items, depth + 1 =>
        if kind = "Union".toList then (items.mapM (ofJson? depth)).map unionOf
        else if kind = "Intersection".toList then (items.mapM (ofJson? depth)).map intersectionOf
        else none
      | _, _ => none
  | _, _ => none

def ofJsonText? (s : Text) : Option StaticType := (JsonValue.read s).bind (ofJson? jsonDepth)

mutual

def toJson : StaticType → JsonValue
  | .named name => .ofMembers [("Named", .ofText name)]
  | .array item => .ofMembers [("ArrayOf", toJson item)]
  | .primitive p => .ofMembers [("Primitive", .ofText p.jsonName)]
  | .union ts => .ofMembers [("Union", .array (membersToJson ts))]
  | .intersection ts => .ofMembers [("Intersection", .array (membersToJson ts))]

def membersToJson : List StaticType → List JsonValue
  | [] => []
  | t :: ts => toJson t :: membersToJson ts

end

end StaticType
end DocTypes
