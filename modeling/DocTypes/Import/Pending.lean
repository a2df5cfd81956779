import DocTypes.Name.Scope
import DocTypes.Ordered.Set

/-!
Imports that were asked for and not added to their files yet. Until then they count as imported.
-/
namespace DocTypes

structure PendingImports where
  byFile : OrderedMap Text (OrderedSet Text)
  deriving DecidableEq

namespace PendingImports

instance : EmptyCollection PendingImports := ⟨⟨∅⟩⟩

/-- What is pending for a file, in the order of the requests. -/
def ofFile (p : PendingImports) (fileKey : Text) : OrderedSet Text :=
  (p.byFile.get? fileKey).getD ∅

def isEmpty (p : PendingImports) : Bool := p.byFile.values.all (·.isEmpty)

/-- The full name that has taken the short name of `name`: an import of the scope first, then a
pending one. -/
def occupant? (p : PendingImports) (scope : NameScope) (name : Text) : Option Text :=
  scope.importedAs? (Name.short name) <|>
    (p.ofFile scope.fileKey).toList.find? fun pending =>
      Text.eqIgnoreCase (Name.short pending) (Name.short name)

def isShortTaken (p : PendingImports) (scope : NameScope) (name : Text) : Bool :=
  (p.occupant? scope name).isSome

/-- The short name of `name` is taken, and by `name` itself. -/
def isShortOwn (p : PendingImports) (scope : NameScope) (name : Text) : Bool :=
  (p.occupant? scope (Name.unrooted name)).any (Text.eqIgnoreCase · (Name.unrooted name))

/-- Asks for an import. A name that the scope imports already is not asked for again. -/
def request (scope : NameScope) (name : Text) (p : PendingImports) : PendingImports :=
  if scope.imports.values.any (Text.eqIgnoreCase · (Name.unrooted name)) then p
  else
    ⟨p.byFile.insert scope.fileKey ((p.ofFile scope.fileKey).insert (Name.unrooted name))⟩

end PendingImports
end DocTypes
