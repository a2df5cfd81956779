import DocTypes.Doc.Tag
import DocTypes.Text.Word
import DocTypes.TypeExpr.Reader

/-!
One line of a doc comment, between the asterisk and the line end: a tag, or free text.
-/
namespace DocTypes

inductive Content (ν : Type) where
  /-- Free text; a blank line is empty text. -/
  | text (s : Text)
  | tag (t : Tag ν)
  deriving DecidableEq

/-- Word characters, backslashes and hyphens: what a tag name goes on with. -/
def continuesTagName (c : Char) : Bool := Text.isWordChar c || c == '\\' || c == '-'

namespace TypedValue

def startsVariable (s : Text) : Bool :=
  ["$", "&$", "...$", "&...$"].any fun mark => Text.startsWith mark s

/-- A type, then a variable if one follows, then a description. -/
def read (s : Text) : TagValue Text :=
  match TypeExpr.readPrefix (Text.trim s) with
  | .error _ => .malformed (Text.trim s)
  | .ok (t, rest) =>
    let tail := Text.trimStart rest
    if startsVariable tail then
      .typed ⟨t, some (tail.takeWhile (!Text.isBlank ·)),
        Text.trim (tail.dropWhile (!Text.isBlank ·))⟩
    else .typed ⟨t, none, tail⟩

end TypedValue

namespace Content

variable {ν μ : Type} {m : Type → Type} [Monad m]

def map (f : ν → μ) : Content ν → Content μ
  | .text s => .text s
  | .tag t => .tag (t.map f)

def mapM (f : ν → m μ) : Content ν → m (Content μ)
  | .text s => return .text s
  | .tag t => do return .tag (← t.mapM f)

def tag? : Content ν → Option (Tag ν)
  | .text _ => none
  | .tag t => some t

def isBlank : Content ν → Bool
  | .text s => Text.isAllBlank s
  | .tag _ => false

def render : Content Text → Text
  | .text s => s
  | .tag t => t.render

/-- The tag name at the start of the text and what follows it. -/
def readTagName : Text → Option (Text × Text)
  | '@' :: '\\' :: c :: r =>
    if c.isAlpha || c == '_' then
      some ('@' :: '\\' :: c :: r.takeWhile continuesTagName, r.dropWhile continuesTagName)
    else none
  | '@' :: c :: r =>
    if c.isAlpha || c == '_' then
      some ('@' :: c :: r.takeWhile continuesTagName, r.dropWhile continuesTagName)
    else none
  | _ => none

/-- A line that starts with `@` and a name is a tag. -/
def read (line : Text) : Content Text :=
  match readTagName line with
  | none => .text line
  | some (name, rest) =>
    .tag ⟨name, if Tag.bearsType name then TypedValue.read rest else .plain (Text.trim rest)⟩

end Content
end DocTypes
