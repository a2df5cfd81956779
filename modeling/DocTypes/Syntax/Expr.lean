import DocTypes.Name.Basic

/-!
Expressions and statements of method bodies, as far as they matter for the types of properties.
Class names in them are full names already.
-/
namespace DocTypes

/-- A declared type. -/
inductive TypeHint where
  | word (w : Text)
  /-- A class by its full name, and how it is written. -/
  | named (full written : Text)
  | nullable (h : TypeHint)
  | union (hs : List TypeHint)

inductive Literal where
  | int (n : Int)
  /-- What number it is does not matter to its type. -/
  | float
  | string (s : Text)
  deriving DecidableEq

mutual

inductive Expr where
  /-- A variable without its `$`. -/
  | var (name : Text)
  /-- `$object->name` -/
  | property (object : Expr) (name : Text)
  /-- `Class::$name` -/
  | staticProperty (className name : Text)
  /-- `$array[$index]`, or `$array[]`. -/
  | element (array : Expr) (index : Option Expr)
  | assign (target value : Expr)
  | constant (name : Text)
  | literal (l : Literal)
  | array (items : List Expr)
  | create (className : Text) (args : List Expr)
  | methodCall (object : Expr) (name : Text) (args : List Expr)
  | staticCall (className name : Text) (args : List Expr)
  | functionCall (name : Text) (args : List Expr)
  | closure (params : List Param) (body : List Stmt)
  /-- `$condition ? $onTrue : $onFalse`, or `$condition ?: $onFalse`. -/
  | ternary (condition : Expr) (onTrue : Option Expr) (onFalse : Expr)
  | unknown

inductive Stmt where
  | expr (e : Expr)
  /-- `return $e;` -/
  | result (e : Option Expr)
  /-- `if`, with the statements of either branch. -/
  | branch (condition : Expr) (onTrue onFalse : List Stmt)
  /-- `foreach ($subject as $valueName)` -/
  | loop (subject : Expr) (valueName : Text) (body : List Stmt)
  | block (body : List Stmt)

structure Param where
  /-- Without the `$`. -/
  name : Text
  hint : Option TypeHint
  defaultValue : Option Expr
  isVariadic : Bool

end

instance : Inhabited Expr := ⟨.unknown⟩

/-- A variable name without `$` in front. -/
def withoutDollar (name : Text) : Text := name.dropWhile (· == '$')

namespace TypeHint

/-- A class written by its short name. -/
def ofClass (name : Text) : TypeHint := .named (Name.unrooted name) (Name.short name)

/-- A class written through an import. -/
def ofAlias (name written : Text) : TypeHint := .named (Name.unrooted name) written

end TypeHint

namespace Expr

def ofVar (name : Text) : Expr := .var (withoutDollar name)

def this : Expr := .var "this"

def ofStaticProperty (className name : Text) : Expr :=
  .staticProperty className (withoutDollar name)

def ofClass (className : Text) : Expr := .create (Name.unrooted className) []

def isNull : Expr → Bool
  | .constant name => Text.eqIgnoreCase (Name.unrooted name) "null"
  | _ => false

def varName? : Expr → Option Text
  | .var name => some name
  | _ => none

end Expr

namespace Stmt

/-- `$this->property = value;` -/
def assignThis (property : Text) (value : Expr) : Stmt :=
  .expr (.assign (.property .this property) value)

end Stmt
end DocTypes
