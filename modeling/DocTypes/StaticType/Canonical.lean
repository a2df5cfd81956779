import DocTypes.Ordered.Set
import DocTypes.StaticType.Basic

/-!
Static types as the type strings an annotation can list. Unions and intersections list whatever
occurs in them.
-/
namespace DocTypes

/-- The word for a primitive, if it says anything in an annotation. -/
def Primitive.word? : Primitive → Option Text
  | int => some "int"
  | float => some "float"
  | bool => some "bool"
  | string => some "string"
  | callable => some "callable"
  | object => some "object"
  | null => some "null"
  | mixed => none
  | error => none

namespace StaticType

/-- An array of which nothing more is known. -/
def mixedArrayText : Text := "mixed[]"

/-- Any array tells more than `mixed[]`. -/
def dropMixedArray (s : OrderedSet Text) : OrderedSet Text :=
  if s.toList.any fun t => Text.endsWith "[]" t && t != mixedArrayText then s.erase mixedArrayText
  else s

/-- The strings for arrays of what `items` lists. -/
def arrayTexts (items : OrderedSet Text) : OrderedSet Text :=
  if items.isEmpty then .ofList [mixedArrayText] else items.image (· ++ "[]")

mutual

/-- The type strings of a type, each once. -/
def canonical : StaticType → OrderedSet Text
  | .primitive p => .ofList p.word?.toList
  | .named name => .ofList ['\\' :: name]
  | .array item => arrayTexts (canonical item)
  | .union ts => .ofList (canonicalMembers ts)
  | .intersection ts => dropMixedArray (.ofList (canonicalMembers ts))

def canonicalMembers : List StaticType → List Text
  | [] => []
  | t :: ts => (canonical t).toList ++ canonicalMembers ts

end

theorem canonicalMembers_eq (ts : List StaticType) :
    canonicalMembers ts = ts.flatMap fun t => (canonical t).toList := by
  induction ts with
  | nil => rfl
  | cons t ts ih => simp [canonicalMembers, ih]

end StaticType
end DocTypes
