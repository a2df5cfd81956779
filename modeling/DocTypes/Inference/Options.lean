import DocTypes.Text.Blank

/-!
What can be chosen about inference.
-/
namespace DocTypes

inductive StrategyKind where
  /-- Typed parameters of instantiating methods that are assigned to the property. -/
  | constructorParam
  /-- All assignments to the property in its class. -/
  | allAssign
  deriving DecidableEq

structure InferenceOptions where
  /-- The strategies in use; their order does not matter. -/
  strategies : List StrategyKind := [.constructorParam, .allAssign]
  /-- Names of the methods that set up an instance, in any case. -/
  instantiatingMethods : List Text := ["__construct", "setUp"]
  /-- Tags that mark a method as one that sets up an instance. -/
  instantiationMarkers : List Text := ["required"]
  deriving DecidableEq

namespace InferenceOptions

instance : Inhabited InferenceOptions := ⟨{}⟩

def isInstantiatingName (o : InferenceOptions) (name : Text) : Bool :=
  o.instantiatingMethods.any (Text.eqIgnoreCase · name)

end InferenceOptions
end DocTypes
