import DocTypes.Syntax.Class
import DocTypes.Syntax.Walk

/-!
Assignments to a property in method bodies, and the parameter that a property is set from.
-/
namespace DocTypes

structure PropertyAssign where
  target : Expr
  value : Expr
  /-- An element of the property is assigned, and not the property itself. -/
  isElement : Bool

/-- `$x->name` or `X::$name`. -/
def Expr.isPropertyNamed (property : Text) : Expr → Bool
  | .property _ name => name == property
  | .staticProperty _ name => name == property
  | _ => false

/-- The expression as an assignment to the property or to an element of it. -/
def Expr.assignTo? (property : Text) : Expr → Option PropertyAssign
  | .assign target value =>
    if target.isPropertyNamed property then some ⟨target, value, false⟩
    else
      match target with
      | .element base _ =>
        if base.isPropertyNamed property then some ⟨target, value, true⟩ else none
      | _ => none
  | _ => none

/-- All assignments to the property, in the order of the source. -/
def assignments (property : Text) (body : List Stmt) : List PropertyAssign :=
  let visit (e : Expr) : StateM (List PropertyAssign) Unit :=
    modify (· ++ (e.assignTo? property).toList)
  ((Stmt.walkList visit body).run []).2

/-- The parameter whose value an assignment gives to the property as a whole. -/
def PropertyAssign.param? (m : Method) (a : PropertyAssign) : Option Param :=
  if a.isElement then none else a.value.varName?.bind m.param?

/-- The parameter that the first such assignment of a method takes the property from. The search
ends there. -/
def boundParam? (m : Method) (property : Text) : Option Param :=
  let visit (e : Expr) : Except Param Unit :=
    match (e.assignTo? property).bind (·.param? m) with
    | some param => .error param
    | none => .ok ()
  match Stmt.walkList visit m.body with
  | .error param => some param
  | .ok _ => none

end DocTypes
