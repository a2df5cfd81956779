import DocTypes.Doc.Tag
import DocTypes.TypeExpr.Resolved

/-!
The types one tag lists, as written and in full.
-/
namespace DocTypes

structure TypeInfo where
  written : List Text
  full : List Text
  deriving DecidableEq

namespace TypeInfo

def ofValue (v : TypedValue TypeRef) : TypeInfo :=
  ⟨v.type.written.alternatives.map (·.render), v.type.full.alternatives.map (·.render)⟩

def isNull (type : Text) : Bool := Text.eqIgnoreCase type "null"

def arrayWords : List Text := ["array", "iterable", "list", "non-empty-array", "non-empty-list"]

/-- An array by its brackets or by its name, with or without arguments. -/
def isArrayLike (type : Text) : Bool :=
  let small := Text.lower type
  Text.endsWith "[]" small || arrayWords.contains (small.takeWhile (· != '<'))

def isNullable (i : TypeInfo) : Bool := i.written.any isNull

/-- There are types besides null, and all of them are arrays. -/
def isIterable (i : TypeInfo) : Bool :=
  let others := i.written.filter (!isNull ·)
  !others.isEmpty && others.all isArrayLike

end TypeInfo
end DocTypes
