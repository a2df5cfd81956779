import DocTypes.Name.Basic
import DocTypes.TypeExpr.Printer

/-!
Tags of doc comments. A tag that bears a type holds `type [variable] [description]`; any other
holds its text as it is.
-/
namespace DocTypes

structure TypedValue (ν : Type) where
  type : TypeExpr ν
  /-- The variable with its `$` and whatever marks it as by-reference or variadic. -/
  variableName : Option Text
  description : Text
  deriving DecidableEq

inductive TagValue (ν : Type) where
  | typed (v : TypedValue ν)
  | plain (text : Text)
  /-- What follows a tag that should bear a type but bears none. -/
  | malformed (text : Text)
  deriving DecidableEq

structure Tag (ν : Type) where
  /-- With the `@`. -/
  name : Text
  value : TagValue ν
  deriving DecidableEq

variable {ν μ : Type} {m : Type → Type} [Monad m]

namespace TypedValue

def ofType (t : TypeExpr ν) : TypedValue ν := ⟨t, none, []⟩

def map (f : ν → μ) (v : TypedValue ν) : TypedValue μ := { v with type := v.type.map f }

def mapM (f : ν → m μ) (v : TypedValue ν) : m (TypedValue μ) := do
  return { v with type := ← v.type.mapM f }

def render (v : TypedValue Text) : Text :=
  let variableName := match v.variableName with
    | some name => ' ' :: name
    | none => []
  let description := if v.description.isEmpty then [] else ' ' :: v.description
  v.type.render ++ variableName ++ description

end TypedValue

namespace TagValue

def map (f : ν → μ) : TagValue ν → TagValue μ
  | .typed v => .typed (v.map f)
  | .plain s => .plain s
  | .malformed s => .malformed s

def mapM (f : ν → m μ) : TagValue ν → m (TagValue μ)
  | .typed v => do return .typed (← v.mapM f)
  | .plain s => return .plain s
  | .malformed s => return .malformed s

def typed? : TagValue ν → Option (TypedValue ν)
  | .typed v => some v
  | _ => none

def render : TagValue Text → Text
  | .typed v => v.render
  | .plain s => s
  | .malformed s => s

end TagValue

namespace Tag

/-- A tag name with its `@`, however it was given. -/
def normalName (name : Text) : Text := '@' :: (Text.trim name).dropWhile (· == '@')

/-- The annotation class that a tag name refers to. -/
def annotationClass (name : Text) : Text := Name.unrooted (name.dropWhile (· == '@'))

def typeBearingNames : List Text := ["@var", "@param", "@return", "@throws"]

/-- Whether the tags of this name bear a type, in any case. -/
def bearsType (name : Text) : Bool := typeBearingNames.any (Text.eqIgnoreCase · name)

def named (name : Text) (value : TagValue ν) : Tag ν := ⟨normalName name, value⟩

def map (f : ν → μ) (t : Tag ν) : Tag μ := { t with value := t.value.map f }

def mapM (f : ν → m μ) (t : Tag ν) : m (Tag μ) := do
  return { t with value := ← t.value.mapM f }

/-- The name and the value behind a space. Arguments in parentheses follow without one. -/
def render (t : Tag Text) : Text :=
  match t.value.render with
  | [] => t.name
  | '(' :: r => t.name ++ '(' :: r
  | c :: r => t.name ++ ' ' :: c :: r

end Tag
end DocTypes
