import DocTypes.Text.Blank
import DocTypes.Text.Number
import DocTypes.TypeExpr.Basic

/-!
Reading type expressions. `|` binds loosest, then `&`, then `[]` behind and `?` in front of a
name, a name with arguments, or a type in parentheses. An `&` before a `$` belongs to a parameter
passed by reference and not to the type.
-/
namespace DocTypes

/-- Where a type stops being one: at the end of the text, or at a character that cannot stand
there. Offsets count UTF-8 bytes. -/
inductive TypeSyntaxError where
  | unexpectedEnd (offset : Nat)
  | unexpectedChar (c : Char) (offset : Nat)
  deriving DecidableEq

namespace TypeSyntaxError

/-- The error for stopping in front of `rest`, the last part of `s`. -/
def before (s rest : Text) : TypeSyntaxError :=
  match rest with
  | [] => .unexpectedEnd (Text.utf8Size s)
  | c :: _ => .unexpectedChar c (Text.utf8Size s - Text.utf8Size rest)

def message : TypeSyntaxError → Text
  | .unexpectedEnd offset => "unexpected end of type at offset " ++ Nat.toDigits 10 offset
  | .unexpectedChar c offset =>
    "unexpected character '" ++ c :: "' at offset " ++ Nat.toDigits 10 offset

end TypeSyntaxError

namespace TypeExpr

/-- A step of reading: a value and the text behind it, or the text in front of which it failed. -/
abbrev Step (α : Type) := Text → Except Text (α × Text)

/-- Names in types go by Unicode 17. -/
def startsName (c : Char) : Bool := Text.isAlphabetic .unicode17 c || c == '_'

def continuesName (c : Char) : Bool :=
  Text.isAlphanumeric .unicode17 c || c == '_' || c == '\\' || c == '-'

/-- A name from its first letter on, with `root` put in front. -/
def readLetters (root : Text) : Step Text
  | [] => .error []
  | c :: r =>
    if startsName c then .ok (root ++ c :: r.takeWhile continuesName, r.dropWhile continuesName)
    else .error (c :: r)

/-- `$this`, or a name that may be rooted. -/
def readName : Step Text := fun s =>
  match Text.after? "$this" s with
  | some rest => .ok ("$this", rest)
  | none =>
    match s with
    | '\\' :: r => readLetters ['\\'] r
    | s => readLetters [] s

def readChar (c : Char) : Text → Except Text Text
  | [] => .error []
  | d :: r => if d = c then .ok r else .error (d :: r)

/-- Any number of items, each behind a separator; `behind` cuts off a separator where there is
one. Reads `bound` items at most. -/
def readMore {α : Type} (behind : Text → Option Text) (item : Step α) : Nat → Step (List α)
  | 0, s => .ok ([], s)
  | bound + 1, s =>
    match behind s with
    | none => .ok ([], s)
    | some r => do
      let (a, r) ← item r
      let (as, r) ← readMore behind item bound r
      return (a :: as, r)

def behindBar : Text → Option Text
  | '|' :: r => some r
  | _ => none

def behindAmpersand : Text → Option Text
  | '&' :: '$' :: _ => none
  | '&' :: r => some r
  | _ => none

def behindComma : Text → Option Text
  | ',' :: r => some r
  | _ => none

/-- Applies the `[]` pairs at the start of the text to `t`. -/
def takeBrackets (t : TypeExpr Text) : Text → TypeExpr Text × Text
  | '[' :: ']' :: r => takeBrackets (.array t) r
  | r => (t, r)

def readPostfix (atom : Step (TypeExpr Text)) : Step (TypeExpr Text) := fun s => do
  let (t, r) ← atom s
  return takeBrackets t r

/-- A lone member stands for itself; `make` joins two or more. Every further member costs a
character, so the length of the text bounds their number. -/
def readJoined (make : List (TypeExpr Text) → TypeExpr Text) (behind : Text → Option Text)
    (member : Step (TypeExpr Text)) : Step (TypeExpr Text) := fun s => do
  let (t, r) ← member s
  let (ts, r) ← readMore behind member r.length r
  return (if ts.isEmpty then t else make (t :: ts), r)

/-- A whole type, given how to read what `|`, `&` and `[]` connect. -/
def readType (atom : Step (TypeExpr Text)) : Step (TypeExpr Text) :=
  readJoined .union behindBar (readJoined .intersection behindAmpersand (readPostfix atom))

def readSpaced {α : Type} (item : Step α) : Step α := fun s => do
  let (a, r) ← item (Text.trimStart s)
  return (a, Text.trimStart r)

/-- What stands between the connecting marks, nested less than `depth` deep. -/
def readAtom : Nat → Step (TypeExpr Text)
  | 0, s => .error s
  | depth + 1, s =>
    match s with
    | '?' :: r => do
      let (t, r) ← readPostfix (readAtom depth) r
      return (.nullable t, r)
    | '(' :: r => do
      let (t, r) ← readSpaced (readType (readAtom depth)) r
      return (t, ← readChar ')' r)
    | s => do
      let (base, r) ← readName s
      match r with
      | '<' :: r =>
        let arg := readSpaced (readType (readAtom depth))
        let (t, r) ← arg r
        let (ts, r) ← readMore behindComma arg r.length r
        return (.generic base (t :: ts), ← readChar '>' r)
      | r => return (.name base, r)

/-- The longest type at the start of the text. Every level of nesting costs a character, so the
text is never nested deeper than it is long. -/
def readLongest (s : Text) : Except Text (TypeExpr Text × Text) :=
  readType (readAtom (s.length + 1)) s

/-- The type at the start of the text and what follows it: nothing, or a blank first. -/
def readPrefix (s : Text) : Except TypeSyntaxError (TypeExpr Text × Text) :=
  match readLongest s with
  | .error rest => .error (.before s rest)
  | .ok (t, []) => .ok (t, [])
  | .ok (t, c :: r) => if Text.isBlank c then .ok (t, c :: r) else .error (.before s (c :: r))

/-- The text as exactly one type; white space around it does not count. -/
def read (s : Text) : Except TypeSyntaxError (TypeExpr Text) :=
  match readPrefix (Text.trim s) with
  | .error e => .error e
  | .ok (t, []) => .ok t
  | .ok (_, rest) => .error (.before (Text.trim s) rest)

end TypeExpr
end DocTypes
