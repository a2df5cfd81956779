import DocTypes.ClassHierarchy
import DocTypes.Config
import DocTypes.Import.Shorten
import DocTypes.Inference.Inferer
import DocTypes.VarDocs

/-!
The engine: a configuration together with what it knows about the code, applied to whole classes.
-/
namespace DocTypes

/-- Shortens the names in the comments of a class: its own, then those of its members. -/
def ClassLike.importNames (classExists : Text → Bool) (c : ClassLike) :
    StateM ImportState ClassLike := do
  let doc := (← c.doc.importNames classExists).1
  let members ← c.members.mapM fun m =>
    return m.withDoc (← m.doc.importNames classExists).1
  return { c with doc, members }

structure Engine where
  config : EngineConfig
  oracle : TypeOracle
  isSubtype : Text → Text → Bool
  classExists : Text → Bool
  inferer : Inferer

/-- What was done to a class. -/
structure ClassReport where
  fixedProperties : Nat
  /-- The full names that imports were requested for. -/
  importedNames : List Text
  deriving DecidableEq

namespace Engine

/-- An engine for a valid configuration. -/
def build (config : EngineConfig) (oracle : TypeOracle := .syntactic)
    (hierarchy : ClassHierarchy := ∅) : Except ConfigError Engine := do
  let config ← config.validated
  return ⟨config, oracle, hierarchy.isSubtype, hierarchy.isKnown, .ofOptions config.inference⟩

def context (e : Engine) : InferenceContext := ⟨e.oracle, e.config.inference⟩

def inferProperty (e : Engine) (p : Property) (c : ClassLike) : TypeSet :=
  e.inferer.inferIn p c e.context

def fixVarDocs (e : Engine) (c : ClassLike) : ClassLike × Nat :=
  c.fixVarDocs fun p => e.inferProperty p c

/-- Shortens the names in all comments of a class. The names told are those of this class. -/
def importDocNames (e : Engine) (c : ClassLike) : StateM PendingImports (ClassLike × List Text) :=
  fun pending =>
    let (c, st) := (c.importNames e.classExists).run ⟨pending, []⟩
    ((c, st.recorded), st.pending)

/-- Fixes the `@var` tags of a class and then, where configured, shortens its names. -/
def processClass (e : Engine) (c : ClassLike) : StateM PendingImports (ClassLike × ClassReport) := do
  let (c, fixed) := e.fixVarDocs c
  if e.config.importNames then
    let (c, imported) ← e.importDocNames c
    return (c, ⟨fixed, imported⟩)
  else return (c, ⟨fixed, []⟩)

end Engine
end DocTypes
