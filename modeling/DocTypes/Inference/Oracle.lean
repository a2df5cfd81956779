import DocTypes.StaticType.Basic
import DocTypes.Syntax.Class

/-!
Sources of the types of expressions, and the one that knows the syntax alone.
-/
namespace DocTypes

/-- Where an expression stands. -/
structure ExprScope where
  owner : Option ClassLike := none
  method : Option Method := none

/-- Tells the type of an expression, where it can. -/
abbrev TypeOracle := Expr → ExprScope → Option StaticType

namespace TypeOracle

def silent : TypeOracle := fun _ _ => none

/-- Both possible types, or the one that both are. -/
def either (t u : StaticType) : StaticType := if t = u then t else .unionOf [t, u]

/-- The type of an array with items of known types. Without items nothing is known. -/
def arrayOf (items : List StaticType) : StaticType :=
  match StaticType.memberSet items with
  | [] => .mixedArray
  | [t] => .array t
  | ts => .array (.unionOf ts)

def constantTypes : List (Text × StaticType) :=
  [("null", .null), ("true", .bool), ("false", .bool)]

def constantType? (name : Text) : Option StaticType :=
  constantTypes.lookup (Text.lower (Name.unrooted name))

/-- `self` and `static`, in any case, name the class at hand. -/
def isSelf (className : Text) : Bool :=
  Text.eqIgnoreCase className "self" || Text.eqIgnoreCase className "static"

def ownType? (owner : Option ClassLike) : Option StaticType :=
  (owner.bind (·.name)).map .ofClass

def classType? (className : Text) (owner : Option ClassLike) : Option StaticType :=
  if isSelf className then ownType? owner
  else if Text.eqIgnoreCase className "parent" then none
  else some (.ofClass className)

/-- The types of the words that a declaration can use in place of a class. -/
def wordTypes : List (Text × StaticType) :=
  [("int", .int), ("integer", .int), ("float", .float), ("double", .float), ("bool", .bool),
   ("boolean", .bool), ("true", .bool), ("false", .bool), ("string", .string),
   ("callable", .callable), ("object", .object), ("null", .null), ("mixed", .mixed),
   ("array", .mixedArray), ("iterable", .mixedArray)]

def wordType? (word : Text) (owner : Option ClassLike) : Option StaticType :=
  if isSelf word then ownType? owner else wordTypes.lookup (Text.lower word)

mutual

/-- The type a declaration admits, if all its parts are understood. -/
def hintType? (owner : Option ClassLike) : TypeHint → Option StaticType
  | .word w => wordType? w owner
  | .named full _ => some (.ofClass full)
  | .nullable h => (hintType? owner h).map fun t => .unionOf [t, .null]
  | .union hs => (hintTypes? owner hs).map .unionOf

def hintTypes? (owner : Option ClassLike) : List TypeHint → Option (List StaticType)
  | [] => some []
  | h :: hs => do
    let t ← hintType? owner h
    let ts ← hintTypes? owner hs
    return t :: ts

end

/-- The declared type of a variable: the object at hand, or a parameter. -/
def varType? (scope : ExprScope) (name : Text) : Option StaticType :=
  if name = "this".toList then ownType? scope.owner
  else do
    let param ← scope.method.bind (·.param? name)
    let t ← hintType? scope.owner (← param.hint)
    return if param.isVariadic then .array t else t

def propertyType? (scope : ExprScope) (name : Text) : Option StaticType := do
  let property ← scope.owner.bind (·.property? name)
  hintType? scope.owner (← property.hint)

def isThis : Expr → Bool
  | .var name => name = "this".toList
  | _ => false

mutual

/-- Reads the type off the expression and the declarations around it. -/
def typeOf? (scope : ExprScope) : Expr → Option StaticType
  | .literal (.int _) => some .int
  | .literal .float => some .float
  | .literal (.string _) => some .string
  | .constant name => constantType? name
  | .array items => some (((itemTypes? scope items).map arrayOf).getD .mixedArray)
  | .create className _ => classType? className scope.owner
  | .var name => varType? scope name
  | .property object name => if isThis object then propertyType? scope name else none
  | .staticProperty className name => if isSelf className then propertyType? scope name else none
  | .closure _ _ => some .callable
  | .assign _ value => typeOf? scope value
  | .ternary condition none onFalse => do
    return either (← typeOf? scope condition) (← typeOf? scope onFalse)
  | .ternary _ (some onTrue) onFalse => do
    return either (← typeOf? scope onTrue) (← typeOf? scope onFalse)
  | .element _ _ => none
  | .methodCall _ _ _ => none
  | .staticCall _ _ _ => none
  | .functionCall _ _ => none
  | .unknown => none

/-- The types of all items; none if one is unknown. -/
def itemTypes? (scope : ExprScope) : List Expr → Option (List StaticType)
  | [] => some []
  | e :: es => do
    let t ← typeOf? scope e
    let ts ← itemTypes? scope es
    if t.isError then none else return t :: ts

end

/-- The oracle that has nothing to go by but the syntax. -/
def syntactic : TypeOracle := fun e scope => typeOf? scope e

end TypeOracle
end DocTypes
