import DocTypes.Name.Basic
import DocTypes.Ordered.Set

/-!
The types to be listed in an annotation, each once and in the order in which they were found.
-/
namespace DocTypes

structure TypeName where
  text : Text
  /-- An alias is written as it is and never made absolute. -/
  isAlias : Bool := false
  deriving DecidableEq

abbrev TypeSet := OrderedSet TypeName

namespace TypeName

instance : Inhabited TypeName := ⟨⟨[], false⟩⟩

def plain (name : Text) : TypeName := ⟨name, false⟩

def aliased (name : Text) : TypeName := ⟨name, true⟩

/-- A part that may name a class is made absolute; a reserved word is left as it is. -/
def absolutePart (part : Text) : Text := if Name.isReserved part then part else Name.rooted part

/-- The mark at which a type string falls into parts: `&` only where no `|` occurs. -/
def partMark (s : Text) : Char := if !s.contains '|' && s.contains '&' then '&' else '|'

/-- The name as it is written in a tag, with its class names absolute. -/
def inTag (n : TypeName) : Text :=
  if n.isAlias then n.text
  else
    Text.join [partMark n.text] ((Text.splitOn (partMark n.text) n.text).map absolutePart)

end TypeName

namespace TypeSet

def ofNames (names : List Text) : TypeSet := .ofList (names.map .plain)

def names (s : TypeSet) : List Text := s.toList.map (·.text)

def hasName (s : TypeSet) (name : Text) : Bool := s.toList.any (·.text == name)

def render (s : TypeSet) : Text := Text.join "|" (names s)

/-- The whole set as it is written in a tag. -/
def inTag (s : TypeSet) : Text := Text.join "|" (s.toList.map TypeName.inTag)

end TypeSet
end DocTypes
