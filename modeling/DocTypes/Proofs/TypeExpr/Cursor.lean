import DocTypes.Proofs.Text.Bytes
import DocTypes.TypeExpr.Reader

/-!
Reading a type with a position in bytes that moves over the whole text. Every look at the text cuts it
at a position, which can be inside of a character or behind the end. Every loop goes on for as long as
the text says, and so does the nesting; both are given as many turns as the text has characters, and
needing more is an ending of its own.
-/
namespace DocTypes.TypeExpr
open Text

/-- Why reading by positions ends without a type. -/
inductive Halt where
  /-- The text is not a type. -/
  | mismatch (e : TypeSyntaxError)
  /-- The position is not between two characters of the text. -/
  | cut (pos : Nat)
  /-- More turns are asked for, or deeper nesting, than the text has characters. -/
  | exhausted

/-- A step of reading that moves a position in the text. -/
abbrev Move (α : Type) := StateT Nat (Except Halt) α

namespace Cursor

variable {α : Type} (input : Text)

/-- The text from the position `pos` on. -/
def restAt (pos : Nat) : Except Halt Text :=
  match cutAt? pos input with
  | some (_, r) => .ok r
  | none => .error (.cut pos)

/-- What stands between two positions. -/
def between (start stop : Nat) : Except Halt Text :=
  match cutAt? stop input with
  | some (s, _) => restAt s start
  | none => .error (.cut stop)

/-- What stands behind the position. -/
def look : Move Text := do restAt input (← get)

/-- The next character, if the text does not end here. -/
def peek : Move (Option Char) := do return (← look input).head?

def bump : Move Unit := do
  match ← peek input with
  | some c => modify (· + c.utf8Size)
  | none => pure ()

def isAt (c : Char) : Move Bool := do return (← peek input) == some c

def eat (c : Char) : Move Bool := do
  if ← isAt input c then
    bump input
    return true
  else return false

/-- The error of the character, or of the end, at the position. -/
def fail : Move α := do
  match ← peek input with
  | some c => throw (.mismatch (.unexpectedChar c (← get)))
  | none => throw (.mismatch (.unexpectedEnd (← get)))

def expect (c : Char) : Move Unit := do
  if ← isAt input c then bump input else fail input

/-- Takes turns until one of them gives nothing. -/
def loop (turn : α → Move (Option α)) : Nat → α → Move α
  | 0, _ => throw .exhausted
  | bound + 1, a => do
    match ← turn a with
    | some b => loop turn bound b
    | none => return a

/-- A loop in which every turn but the last one moves on. -/
def repeatFrom (turn : α → Move (Option α)) (a : α) : Move α := loop turn (input.length + 1) a

def skipWhile (p : Char → Bool) : Move Unit :=
  repeatFrom input (fun _ => do
    if (← peek input).any p then
      bump input
      return some ()
    else return none) ()

/-- The items behind separators, put behind those that there are; `ahead` sees whether a separator
comes next. -/
def moreAt (ahead : Move Bool) (item : Move α) : List α → Move (List α) :=
  repeatFrom input fun as => do
    if ← ahead then
      bump input
      return some (as ++ [← item])
    else return none

/-- An `&` before a `$` does not count. -/
def ampersandAhead : Move Bool := do
  if ← isAt input '&' then
    return !startsWith "$" (← restAt input ((← get) + 1))
  else return false

/-- A name that begins at `start`, from its first letter on. -/
def lettersAt (start : Nat) : Move Text := do
  if (← peek input).any startsName then
    bump input
    skipWhile input continuesName
    between input start (← get)
  else fail input

def nameAt : Move Text := do
  let start ← get
  if startsWith "$this" (← look input) then
    modify (· + utf8Size "$this")
    return "$this"
  else
    let _ ← eat input '\\'
    lettersAt input start

/-- All the `[]` pairs, two bytes each. -/
def bracketsAt (t : TypeExpr Text) : Move (TypeExpr Text) :=
  repeatFrom input (fun t => do
    if startsWith "[]" (← look input) then
      modify (· + 2)
      return some (.array t)
    else return none) t

def suffixedAt (atom : Move (TypeExpr Text)) : Move (TypeExpr Text) := do
  bracketsAt input (← atom)

/-- One member stands for itself. -/
def joinedAt (make : List (TypeExpr Text) → TypeExpr Text) (ahead : Move Bool)
    (member : Move (TypeExpr Text)) : Move (TypeExpr Text) := do
  let t ← member
  if ← ahead then return make (← moreAt input ahead member [t]) else return t

def typeAt (atom : Move (TypeExpr Text)) : Move (TypeExpr Text) :=
  joinedAt input .union (isAt input '|')
    (joinedAt input .intersection (ampersandAhead input) (suffixedAt input atom))

def spacedAt (item : Move α) : Move α := do
  skipWhile input isBlank
  let a ← item
  skipWhile input isBlank
  return a

/-- A name, with arguments behind it or without. -/
def namedAt (arg : Move (TypeExpr Text)) : Move (TypeExpr Text) := do
  let base ← nameAt input
  if ← eat input '<' then
    let ts ← moreAt input (isAt input ',') arg [← arg]
    expect input '>'
    return .generic base ts
  else return .name base

/-- What stands between the connecting marks, nested less than `depth` deep. -/
def atomAt : Nat → Move (TypeExpr Text)
  | 0 => throw .exhausted
  | depth + 1 => do
    match ← peek input with
    | some '?' =>
      bump input
      return .nullable (← suffixedAt input (atomAt depth))
    | some '(' =>
      bump input
      let t ← spacedAt input (typeAt input (atomAt depth))
      expect input ')'
      return t
    | some _ => namedAt input (spacedAt input (typeAt input (atomAt depth)))
    | none => fail input

/-- The type at the start of the text and the position at which it ends. -/
def readPrefix : Except Halt (TypeExpr Text × Nat) :=
  StateT.run (s := 0) do
    let t ← typeAt input (atomAt input (input.length + 1))
    if (← peek input).all isBlank then return t else fail input

/-- The text as exactly one type. -/
def read : Except Halt (TypeExpr Text) := do
  let (t, n) ← readPrefix (trim input)
  match ← restAt (trim input) n with
  | [] => return t
  | c :: _ => throw (.mismatch (.unexpectedChar c n))

end Cursor
end DocTypes.TypeExpr
