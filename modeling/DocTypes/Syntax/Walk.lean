import DocTypes.Syntax.Expr

/-!
Visiting the expressions of a method body: each before its parts, and the parts from left to
right. Closure bodies are visited, the defaults of closure parameters are not.
-/
namespace DocTypes

variable {m : Type → Type} [Monad m]

mutual

def Expr.walk (visit : Expr → m Unit) (e : Expr) : m Unit := do
  visit e
  match e with
  | .property object _ => object.walk visit
  | .element array none => array.walk visit
  | .element array (some index) => do
    array.walk visit
    index.walk visit
  | .assign target value => do
    target.walk visit
    value.walk visit
  | .array items => Expr.walkList visit items
  | .create _ args => Expr.walkList visit args
  | .methodCall object _ args => do
    object.walk visit
    Expr.walkList visit args
  | .staticCall _ _ args => Expr.walkList visit args
  | .functionCall _ args => Expr.walkList visit args
  | .closure _ body => Stmt.walkList visit body
  | .ternary condition none onFalse => do
    condition.walk visit
    onFalse.walk visit
  | .ternary condition (some onTrue) onFalse => do
    condition.walk visit
    onTrue.walk visit
    onFalse.walk visit
  | .var _ => return
  | .staticProperty _ _ => return
  | .constant _ => return
  | .literal _ => return
  | .unknown => return

def Expr.walkList (visit : Expr → m Unit) : List Expr → m Unit
  | [] => return
  | e :: es => do
    e.walk visit
    Expr.walkList visit es

def Stmt.walk (visit : Expr → m Unit) : Stmt → m Unit
  | .expr e => e.walk visit
  | .result none => return
  | .result (some e) => e.walk visit
  | .branch condition onTrue onFalse => do
    condition.walk visit
    Stmt.walkList visit onTrue
    Stmt.walkList visit onFalse
  | .loop subject _ body => do
    subject.walk visit
    Stmt.walkList visit body
  | .block body => Stmt.walkList visit body

def Stmt.walkList (visit : Expr → m Unit) : List Stmt → m Unit
  | [] => return
  | s :: ss => do
    s.walk visit
    Stmt.walkList visit ss

end

end DocTypes
