import DocTypes.Doc.Slot
import DocTypes.Syntax.Expr

/-!
Classes with their properties and methods, each with the slot of its doc comment.
-/
namespace DocTypes

structure Property where
  /-- Without the `$`. -/
  name : Text
  hint : Option TypeHint := none
  defaultValue : Option Expr := none
  doc : DocSlot := default

structure Method where
  name : Text
  params : List Param := []
  body : List Stmt := []
  doc : DocSlot := default

inductive Member where
  | property (p : Property)
  | method (m : Method)

inductive ClassKind where
  | ordinary
  | trait
  | interface
  deriving DecidableEq

structure ClassLike where
  /-- The full name, unless the class is anonymous. -/
  name : Option Text
  kind : ClassKind := .ordinary
  members : List Member := []
  doc : DocSlot := default

namespace Property

def named (name : Text) : Property := { name := withoutDollar name }

def label (p : Property) : Text := "Property $" ++ p.name

end Property

namespace Method

def label (m : Method) : Text := "ClassMethod " ++ m.name ++ "()"

def param? (m : Method) (name : Text) : Option Param := m.params.find? (·.name == name)

end Method

namespace Member

def property? : Member → Option Property
  | .property p => some p
  | .method _ => none

def method? : Member → Option Method
  | .property _ => none
  | .method m => some m

def doc : Member → DocSlot
  | .property p => p.doc
  | .method m => m.doc

def withDoc (d : DocSlot) : Member → Member
  | .property p => .property { p with doc := d }
  | .method m => .method { m with doc := d }

def label : Member → Text
  | .property p => p.label
  | .method m => m.label

end Member

namespace ClassLike

def named (name : Text) : ClassLike := { name := some (Name.unrooted name) }

def anonymous : ClassLike := { name := none }

def label (c : ClassLike) : Text :=
  match c.name with
  | some name => "Class " ++ name
  | none => "anonymous class"

def isAnonymous (c : ClassLike) : Bool := c.name.isNone

def properties (c : ClassLike) : List Property := c.members.filterMap (·.property?)

def methods (c : ClassLike) : List Method := c.members.filterMap (·.method?)

/-- Method names compare without case. -/
def method? (c : ClassLike) (name : Text) : Option Method :=
  c.methods.find? (Text.eqIgnoreCase ·.name name)

def property? (c : ClassLike) (name : Text) : Option Property := c.properties.find? (·.name == name)

/-- Puts a scope on the class, and on every member without one. -/
def withScope (scope : NameScope) (c : ClassLike) : ClassLike :=
  { c with
    doc := { c.doc with scope := some scope }
    members := c.members.map fun m =>
      m.withDoc { m.doc with scope := m.doc.scope <|> some scope } }

end ClassLike
end DocTypes
