import DocTypes.TypeExpr.Basic

/-!
Type expressions as text.
-/
namespace DocTypes.TypeExpr

variable {ν : Type}

/-- Types made of members, which need parentheses as a member of another. -/
def isCompound : TypeExpr ν → Bool
  | .union _ => true
  | .intersection _ => true
  | _ => false

/-- Types to which `[]` would bind too tightly. -/
def isLoose : TypeExpr ν → Bool
  | .nullable _ => true
  | t => t.isCompound

def parenthesizedIf (needed : Bool) (s : Text) : Text := if needed then '(' :: s ++ ")" else s

mutual

def render : TypeExpr Text → Text
  | .name n => n
  | .nullable t => '?' :: render t
  | .array t => parenthesizedIf t.isLoose (render t) ++ "[]"
  | .union ts => Text.join "|" (renderMembers ts)
  | .intersection ts => Text.join "&" (renderMembers ts)
  | .generic b ts => b ++ '<' :: Text.join ", " (renderArgs ts) ++ ">"

def renderMembers : List (TypeExpr Text) → List Text
  | [] => []
  | t :: ts => parenthesizedIf t.isCompound (render t) :: renderMembers ts

def renderArgs : List (TypeExpr Text) → List Text
  | [] => []
  | t :: ts => render t :: renderArgs ts

end

theorem renderMembers_eq (ts : List (TypeExpr Text)) :
    renderMembers ts = ts.map fun t => parenthesizedIf t.isCompound (render t) := by
  induction ts with
  | nil => rfl
  | cons t ts ih => simp [renderMembers, ih]

theorem renderArgs_eq (ts : List (TypeExpr Text)) : renderArgs ts = ts.map render := by
  induction ts with
  | nil => rfl
  | cons t ts ih => simp [renderArgs, ih]

end DocTypes.TypeExpr
