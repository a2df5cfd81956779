import DocTypes.Name.Basic
import DocTypes.Ordered.Map

/-!
The names in force where a declaration stands: its namespace and the imports of its file.
-/
namespace DocTypes

structure NameScope where
  /-- Which file the scope belongs to, where known. -/
  file : Option Text
  home : Option Text
  /-- The full name behind each alias. -/
  imports : OrderedMap Text Text
  deriving DecidableEq

namespace NameScope

/-- No namespace and no imports. -/
def global : NameScope := ⟨none, none, ∅⟩

instance : Inhabited NameScope := ⟨global⟩

/-- A scope without imports. Backslashes around the namespace are dropped; an empty namespace is
none. -/
def inNamespace (name : Option Text) : NameScope :=
  let trimmed := name.map fun n => Text.dropEnd (· == '\\') (Name.unrooted n)
  ⟨none, trimmed.filter (!·.isEmpty), ∅⟩

def withFile (file : Text) (s : NameScope) : NameScope := { s with file := some file }

def importAs (fullName shortName : Text) (s : NameScope) : NameScope :=
  { s with imports := s.imports.insert shortName (Name.unrooted fullName) }

/-- An import without an alias is known by its short name. -/
def importShort (fullName : Text) (s : NameScope) : NameScope :=
  s.importAs fullName (Name.short fullName)

/-- What tells files apart: the file where known, else the namespace. -/
def fileKey (s : NameScope) : Text := (s.file <|> s.home).getD []

/-- The full name of the first import whose alias is `name` in any case. -/
def importedAs? (s : NameScope) (name : Text) : Option Text :=
  (s.imports.entries.find? fun e => Text.eqIgnoreCase e.1 name).map (·.2)

/-- A name in the namespace of the scope. -/
def atHome (s : NameScope) (name : Text) : Text :=
  match s.home with
  | some home => home ++ '\\' :: name
  | none => name

/-- The full name a written class name stands for. A backslash in front makes it full already;
otherwise an import of its first segment applies, and failing that the namespace. -/
def resolve (s : NameScope) (name : Text) : Text :=
  match name with
  | '\\' :: full => full
  | _ =>
    match s.importedAs? (name.takeWhile (· != '\\')) with
    | some full => full ++ name.dropWhile (· != '\\')
    | none => s.atHome name

end NameScope
end DocTypes
