import DocTypes.Inference.Evidence
import DocTypes.Inference.Options

/-!
Ways of finding the types of a property.
-/
namespace DocTypes

/-- A property and the class that declares it, where known. -/
structure Field where
  property : Property
  owner : Option ClassLike

namespace Field

def inClass (p : Property) (c : ClassLike) : Field := ⟨p, some c⟩

def detached (p : Property) : Field := ⟨p, none⟩

end Field

structure InferenceContext where
  oracle : TypeOracle
  options : InferenceOptions

structure Strategy where
  name : Text
  /-- The higher goes first. -/
  priority : Int
  /-- The types found, or the empty set where the strategy does not apply. -/
  infer : Field → InferenceContext → TypeSet

namespace Strategy

/-- Whatever is assigned to the property in its class. -/
def allAssign : Strategy where
  name := "all_assign"
  priority := 500
  infer f ctx :=
    match f.owner with
    | none => ∅
    | some c => evidenceTypes (evidenceInClass ctx.oracle f.property.name c) f.property.defaultValue

/-- Whether a method sets up an instance, by its name or by a tag that marks it. -/
def isInstantiating (o : InferenceOptions) (m : Method) : Bool :=
  o.isInstantiatingName m.name || o.instantiationMarkers.any m.doc.hasTag

/-- Whether a class is written by another name than an end of its full name. -/
def isAliased (full written : Text) : Bool :=
  let written := Name.unrooted written
  written != full && !Text.endsWith ('\\' :: written) full

mutual

/-- The names that a declaration contributes. Words are in small letters; classes are absolute,
unless written by an alias. -/
def hintNames : TypeHint → List TypeName
  | .word w => [.plain (Text.lower w)]
  | .named full written =>
    if isAliased full written then [.aliased written] else [.plain ('\\' :: full)]
  | .nullable h => hintNames h
  | .union hs => hintNamesList hs

def hintNamesList : List TypeHint → List TypeName
  | [] => []
  | h :: hs => hintNames h ++ hintNamesList hs

end

def hintTypeSet (h : TypeHint) : TypeSet := .ofList (hintNames h)

/-- The evidence for what a declared `array` holds, `mixed[]` where there is none. -/
def refinedArray (evidence : OrderedSet StaticType) : TypeSet :=
  let refined := (StaticType.intersectionOf evidence.toList).typeSet
  if evidence.isEmpty || refined.isEmpty then .ofNames [StaticType.mixedArrayText] else refined

/-- A parameter may be null by its declaration, or when its default is null. -/
def isNullable (ctx : InferenceContext) (c : ClassLike) (m : Method) (p : Param) : Bool :=
  match p.hint with
  | some (.nullable _) => true
  | _ =>
    match p.defaultValue with
    | some d => (ctx.oracle d ⟨some c, some m⟩).any (·.isNull)
    | none => false

/-- The names of a declaration, with a bare `array` replaced by what is known of it. -/
def refineNames (refined : TypeSet) (names : List TypeName) : TypeSet :=
  names.foldl
    (fun s n => if n.text = "array".toList then s.insertAll refined.toList else s.insert n) ∅

/-- What one method tells about a property: the declared type of the parameter it is set from,
or the evidence of the method where that parameter has none. -/
def methodTypes (f : Field) (c : ClassLike) (ctx : InferenceContext) (m : Method) : TypeSet :=
  match boundParam? m f.property.name with
  | none => ∅
  | some p =>
    let evidence := evidenceInMethod ctx.oracle f.property.name (some c) m
    match p.hint with
    | none => evidenceTypes evidence f.property.defaultValue
    | some h =>
      let types := refineNames (refinedArray evidence) (hintTypeSet h).toList
      if isNullable ctx c m p then types.insert (.plain "null") else types

/-- The declared types of the parameters that instantiating methods set the property from. -/
def constructorParam : Strategy where
  name := "constructor_param"
  priority := 800
  infer f ctx :=
    match f.owner with
    | none => ∅
    | some c =>
      (c.methods.filter (isInstantiating ctx.options)).foldl
        (fun s m => s.insertAll (methodTypes f c ctx m).toList) ∅

def ofKind : StrategyKind → Strategy
  | .constructorParam => constructorParam
  | .allAssign => allAssign

end Strategy
end DocTypes
