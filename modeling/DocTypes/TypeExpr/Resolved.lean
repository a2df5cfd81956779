import DocTypes.Name.Scope
import DocTypes.TypeExpr.Basic

/-!
Names in a type together with the full names they stand for.
-/
namespace DocTypes

/-- A name as written, with what it was found to stand for. -/
structure TypeRef where
  written : Text
  /-- The full name, once settled. -/
  resolved : Option Text := none
  /-- Full names it may stand for; the first counts where none is settled. -/
  candidates : List Text := []
  deriving DecidableEq

namespace TypeRef

instance : Inhabited TypeRef := ⟨⟨[], none, []⟩⟩

def ofWritten (name : Text) : TypeRef := ⟨name, none, []⟩

/-- The best known full name, which is the written one where nothing is known. -/
def effective (r : TypeRef) : Text := (r.resolved <|> r.candidates.head?).getD r.written

/-- The best known full name without a backslash in front. -/
def full (r : TypeRef) : Text := Name.unrooted r.effective

/-- Looks the written name up. Reserved words stand for themselves; without a scope a name is
taken as full already. -/
def resolveIn (scope : Option NameScope) (r : TypeRef) : TypeRef :=
  if Name.isReserved r.written then ofWritten r.written
  else
    let full := match scope with
      | some s => s.resolve r.written
      | none => Name.unrooted r.written
    ⟨r.written, some full, [full]⟩

@[simp] theorem written_ofWritten (name : Text) : (ofWritten name).written = name := rfl

@[simp] theorem written_resolveIn (scope : Option NameScope) (r : TypeRef) :
    (r.resolveIn scope).written = r.written := by
  unfold resolveIn
  split <;> rfl

end TypeRef

namespace TypeExpr

/-- The type as it stands in the text. -/
def written (t : TypeExpr TypeRef) : TypeExpr Text := t.map TypeRef.written

/-- The type with full names, without backslashes in front. -/
def full (t : TypeExpr TypeRef) : TypeExpr Text := t.map TypeRef.full

end TypeExpr
end DocTypes
