import DocTypes.Doc.Edit
import DocTypes.Import.Pending

/-!
Shortening the namespaced names of doc comments, with requests for the imports that this takes.
-/
namespace DocTypes

structure ImportState where
  pending : PendingImports
  /-- The full names for which imports were requested, each once. -/
  recorded : List Text
  deriving DecidableEq

namespace ImportState

instance : EmptyCollection ImportState := ⟨⟨∅, []⟩⟩

def record (scope : NameScope) (name : Text) (st : ImportState) : ImportState :=
  ⟨st.pending.request scope name,
    if st.recorded.contains name then st.recorded else st.recorded ++ [name]⟩

end ImportState

/-- Shortens a namespaced name where its short name then stands for it. A class of the same
namespace needs no import and forbids any other use of its short name; an import holds its short
name likewise; a short name that is free is imported. -/
def TypeRef.shorten (classExists : Text → Bool) (scope : NameScope) (r : TypeRef) :
    StateM ImportState TypeRef := fun st =>
  let short := Name.short r.written
  let sibling := scope.atHome short
  let shortened := { r with written := short }
  if !Name.isNamespaced r.written then (r, st)
  else if classExists sibling then
    (if Text.eqIgnoreCase sibling r.full then shortened else r, st)
  else if st.pending.isShortTaken scope r.full then
    (if st.pending.isShortOwn scope r.full then shortened else r, st)
  else (shortened, st.record scope r.full)

/-- Shortens all names of a tree, from the first to the last. -/
def DocTree.shorten (classExists : Text → Bool) (scope : NameScope) (d : DocTree) :
    StateM ImportState DocTree := do
  let entries ← d.entries.mapM fun e =>
    return { e with content := ← e.content.mapM (TypeRef.shorten classExists scope) }
  return { d with entries }

/-- Shortens the names of the comment, if there is one, and tells all names recorded so far. -/
def DocSlot.importNames (classExists : Text → Bool) (s : DocSlot) :
    StateM ImportState (DocSlot × List Text) := do
  match s.comment? with
  | none => return (s, [])
  | some c =>
    let tree ← c.tree.shorten classExists (s.scope.getD .global)
    return ((s.writeBack { c with tree }).1, (← get).recorded)

end DocTypes
