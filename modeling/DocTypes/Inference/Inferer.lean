import DocTypes.Inference.Strategy

/-!
Asking strategies one after the other for the types of a property.
-/
namespace DocTypes

/-- Strategies in the order in which they are asked. -/
structure Inferer where
  strategies : List Strategy

inductive InferenceError where
  /-- The class of the property is needed and not known. -/
  | noOwner (property : Text)
  deriving DecidableEq

namespace InferenceError

def message : InferenceError → Text
  | .noOwner property =>
    "Contract violation in FieldRef::class: property $" ++ property ++
      " has no owning class attached"

end InferenceError

namespace Inferer

/-- Puts a strategy in front of the first whose priority is not higher. -/
def place (s : Strategy) : List Strategy → List Strategy
  | [] => [s]
  | t :: ts => if t.priority ≤ s.priority then s :: t :: ts else t :: place s ts

/-- Orders by descending priority; of equal ones the earlier stays ahead. -/
def ofStrategies (ss : List Strategy) : Inferer := ⟨ss.foldr place []⟩

def ofOptions (o : InferenceOptions) : Inferer := ofStrategies (o.strategies.map .ofKind)

def names (i : Inferer) : List Text := i.strategies.map (·.name)

/-- The first answer that is not empty. -/
def firstAnswer (f : Field) (ctx : InferenceContext) : List Strategy → TypeSet
  | [] => ∅
  | s :: ss => if (s.infer f ctx).isEmpty then firstAnswer f ctx ss else s.infer f ctx

/-- The types of a property of a class. -/
def inferIn (i : Inferer) (p : Property) (c : ClassLike) (ctx : InferenceContext) : TypeSet :=
  firstAnswer (.inClass p c) ctx i.strategies

/-- The types of a property, whose class must be known. -/
def infer (i : Inferer) (f : Field) (ctx : InferenceContext) : Except InferenceError TypeSet :=
  match f.owner with
  | none => .error (.noOwner f.property.name)
  | some c => .ok (i.inferIn f.property c ctx)

end Inferer
end DocTypes
