import DocTypes.Proofs.Text.Trim
import DocTypes.TypeExpr.Printer
import DocTypes.TypeExpr.Reader

/-!
The text of a type, cut at the `|` and `&` that stand outside of parentheses. A `?` in front of a
union or an intersection reaches the first piece only, so the pieces also tell what the text
reads as: `regroup`. It is the type itself exactly for the types that `isGrouped` admits.
-/
namespace DocTypes.TypeExpr

def isSpelled : Text → Bool
  | [] => false
  | c :: r => startsName c && r.all continuesName

/-- `$this`, or a spelled name behind at most one backslash. -/
def isName (n : Text) : Bool :=
  n == "$this" || match n with
    | '\\' :: r => isSpelled r
    | r => isSpelled r

/-- Whether a text can follow an `&` that belongs to the type. -/
def isJoinable (s : Text) : Bool := !Text.startsWith "$" s

/-- A member of a union or an intersection as it is printed. -/
def renderMember (t : TypeExpr Text) : Text := parenthesizedIf t.isCompound t.render

mutual

/-- Two members or more in every union and intersection, and an argument in every generic type. -/
def isProper : TypeExpr Text → Bool
  | .name _ => true
  | .nullable t => t.isProper
  | .array t => t.isProper
  | .union ts => 2 ≤ ts.length && allProper ts
  | .intersection ts => 2 ≤ ts.length && allProper ts
  | .generic _ ts => !ts.isEmpty && allProper ts

def allProper : List (TypeExpr Text) → Bool
  | [] => true
  | t :: ts => t.isProper && allProper ts

end

mutual

/-- The printed type reads as a type: its names are names, and no later member of an
intersection begins with `$`. -/
def isReadable : TypeExpr Text → Bool
  | .name n => isName n
  | .nullable t => t.isReadable
  | .array t => t.isReadable
  | .union ts => allReadable ts
  | .intersection ts => allReadable ts && ts.tail.all fun t => isJoinable (renderMember t)
  | .generic b ts => isName b && allReadable ts

def allReadable : List (TypeExpr Text) → Bool
  | [] => true
  | t :: ts => t.isReadable && allReadable ts

end

mutual

/-- No `?` stands before a union or an intersection. -/
def isGrouped : TypeExpr Text → Bool
  | .name _ => true
  | .nullable t => !t.isCompound && t.isGrouped
  | .array t => t.isGrouped
  | .union ts => allGrouped ts
  | .intersection ts => allGrouped ts
  | .generic _ ts => allGrouped ts

def allGrouped : List (TypeExpr Text) → Bool
  | [] => true
  | t :: ts => t.isGrouped && allGrouped ts

end

@[simp] lemma allProper_iff (ts : List (TypeExpr Text)) :
    allProper ts = true ↔ ∀ t ∈ ts, t.isProper = true := by
  induction ts with
  | nil => simp [allProper]
  | cons t ts ih => simp [allProper, ih]

lemma isProper_union {ts : List (TypeExpr Text)} :
    (union ts).isProper = true ↔ 2 ≤ ts.length ∧ ∀ t ∈ ts, t.isProper = true := by
  rw [isProper, Bool.and_eq_true, decide_eq_true_eq, allProper_iff]

lemma isProper_intersection {ts : List (TypeExpr Text)} :
    (intersection ts).isProper = true ↔ 2 ≤ ts.length ∧ ∀ t ∈ ts, t.isProper = true :=
  isProper_union

lemma isProper_generic {b : Text} {ts : List (TypeExpr Text)} :
    (generic b ts).isProper = true ↔ ts ≠ [] ∧ ∀ t ∈ ts, t.isProper = true := by
  rw [isProper, Bool.and_eq_true, Bool.not_eq_true', List.isEmpty_eq_false_iff, allProper_iff]

@[simp] lemma allReadable_iff (ts : List (TypeExpr Text)) :
    allReadable ts = true ↔ ∀ t ∈ ts, t.isReadable = true := by
  induction ts with
  | nil => simp [allReadable]
  | cons t ts ih => simp [allReadable, ih]

@[simp] lemma allGrouped_iff (ts : List (TypeExpr Text)) :
    allGrouped ts = true ↔ ∀ t ∈ ts, t.isGrouped = true := by
  induction ts with
  | nil => simp [allGrouped]
  | cons t ts ih => simp [allGrouped, ih]

/-- A part of a text between two marks, with the type that it reads as. -/
structure Piece where
  text : Text
  type : TypeExpr Text
  readable : Bool

/-! Pieces with `&` between them, and such groups with `|` between them. -/

def jointText (g : List Piece) : Text := Text.join "&" (g.map (·.text))

def jointType : List Piece → TypeExpr Text
  | [p] => p.type
  | g => .intersection (g.map (·.type))

def jointReadable (g : List Piece) : Bool :=
  g.all (·.readable) && g.tail.all fun p => isJoinable p.text

def wholeText (gs : List (List Piece)) : Text := Text.join "|" (gs.map jointText)

def wholeType : List (List Piece) → TypeExpr Text
  | [g] => jointType g
  | gs => .union (gs.map jointType)

def wholeReadable (gs : List (List Piece)) : Bool := gs.all jointReadable

namespace Piece

def optional (p : Piece) : Piece := ⟨'?' :: p.text, .nullable p.type, p.readable⟩

def parenthesized (gs : List (List Piece)) : Piece :=
  ⟨'(' :: wholeText gs ++ ")", wholeType gs, wholeReadable gs⟩

def bracketed (gs : List (List Piece)) : Piece :=
  ⟨wholeText gs ++ "[]", .array (wholeType gs), wholeReadable gs⟩

def applied (base : Text) (args : List (List (List Piece))) : Piece :=
  ⟨base ++ '<' :: Text.join ", " (args.map wholeText) ++ ">",
    .generic base (args.map wholeType), isName base && args.all wholeReadable⟩

/-- Changes the first piece of all. -/
def onFirst (f : Piece → Piece) : List (List Piece) → List (List Piece)
  | (p :: g) :: gs => (f p :: g) :: gs
  | gs => gs

def wrapIf (needed : Bool) (gs : List (List Piece)) : List (List Piece) :=
  if needed then [[parenthesized gs]] else gs

/-- What an `&` makes of what stands before and behind it: the last group of the one and the first
of the other become one. -/
def glue : List (List Piece) → List (List Piece) → List (List Piece)
  | gs, [] => gs
  | [], hs => hs
  | [g], h :: hs => (g ++ h) :: hs
  | g :: g' :: gs, hs => g :: glue (g' :: gs) hs

end Piece

open Piece

mutual

/-- The pieces of the printed type. -/
def pieces : TypeExpr Text → List (List Piece)
  | .name n => [[⟨n, .name n, isName n⟩]]
  | .nullable t => onFirst optional (pieces t)
  | .array t => [[bracketed (wrapIf t.isLoose (pieces t))]]
  | .union ts => unionPieces ts
  | .intersection ts => intersectionPieces ts
  | .generic b ts => [[applied b (argPieces ts)]]

def unionPieces : List (TypeExpr Text) → List (List Piece)
  | [] => []
  | t :: ts => wrapIf t.isCompound (pieces t) ++ unionPieces ts

def intersectionPieces : List (TypeExpr Text) → List (List Piece)
  | [] => []
  | t :: ts => glue (wrapIf t.isCompound (pieces t)) (intersectionPieces ts)

def argPieces : List (TypeExpr Text) → List (List (List Piece))
  | [] => []
  | t :: ts => pieces t :: argPieces ts

end

/-- What the printed type reads as. -/
def regroup (t : TypeExpr Text) : TypeExpr Text := wholeType (pieces t)

/-- The pieces of a member of a union or an intersection. -/
def memberPieces (t : TypeExpr Text) : List (List Piece) := wrapIf t.isCompound (pieces t)

lemma unionPieces_eq (ts : List (TypeExpr Text)) : unionPieces ts = ts.flatMap memberPieces := by
  induction ts with
  | nil => rfl
  | cons t ts ih => simp [unionPieces, memberPieces, ih]

lemma argPieces_eq (ts : List (TypeExpr Text)) : argPieces ts = ts.map pieces := by
  induction ts with
  | nil => rfl
  | cons t ts ih => simp [argPieces, ih]

end DocTypes.TypeExpr
