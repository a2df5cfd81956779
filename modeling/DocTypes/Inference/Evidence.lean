import DocTypes.Inference.Assignment
import DocTypes.Inference.Oracle
import DocTypes.Ordered.Set
import DocTypes.StaticType.Canonical
import DocTypes.TypeSet

/-!
The types of what is assigned to a property, each once and in the order of the source. Types count as
one when they are equal; any fingerprint that tells these types apart has the same effect.
-/
namespace DocTypes

/-- The type that an assignment gives evidence of. What is assigned to an element tells of an
array; what is in error tells nothing. -/
def PropertyAssign.type? (oracle : TypeOracle) (scope : ExprScope) (a : PropertyAssign) :
    Option StaticType := do
  let t ← oracle a.value scope
  if t.isError then none else return if a.isElement then .array t else t

def assignedTypes (oracle : TypeOracle) (property : Text) (owner : Option ClassLike)
    (m : Method) : List StaticType :=
  (assignments property m.body).filterMap (·.type? oracle ⟨owner, some m⟩)

/-- The evidence in one method. -/
def evidenceInMethod (oracle : TypeOracle) (property : Text) (owner : Option ClassLike)
    (m : Method) : OrderedSet StaticType :=
  .ofList (assignedTypes oracle property owner m)

/-- The evidence in all methods of a class. -/
def evidenceInClass (oracle : TypeOracle) (property : Text) (c : ClassLike) :
    OrderedSet StaticType :=
  .ofList (c.methods.flatMap (assignedTypes oracle property (some c)))

/-- The canonical type strings as a set for an annotation. -/
def StaticType.typeSet (t : StaticType) : TypeSet := .ofNames t.canonical.toList

/-- A property starts as null by its default, and without one. -/
def defaultsToNull (defaultValue : Option Expr) : Bool := defaultValue.all (·.isNull)

/-- What evidence amounts to. Where there is any, a property that starts as null may be null. -/
def evidenceTypes (evidence : OrderedSet StaticType) (defaultValue : Option Expr) : TypeSet :=
  if evidence.isEmpty then ∅
  else
    let start := if defaultsToNull defaultValue then [StaticType.null] else []
    (StaticType.intersectionOf (evidence.toList ++ start)).typeSet

end DocTypes
