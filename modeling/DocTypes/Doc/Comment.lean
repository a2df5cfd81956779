import DocTypes.Doc.Printer
import DocTypes.Doc.Reader
import DocTypes.Doc.TypeInfo

/-!
The doc comment of one declaration: its tree with full names, next to the text it was read from.
-/
namespace DocTypes

structure DocComment where
  tree : DocTree
  source : Text
  scope : Option NameScope

namespace DocComment

def read (text : Text) (scope : Option NameScope) : DocComment :=
  ⟨(DocTree.read text).resolveIn scope, text, scope⟩

/-- Looks the names up again, as is due after a change of the tree. -/
def resolve (c : DocComment) : DocComment := { c with tree := c.tree.resolveIn c.scope }

def print (c : DocComment) : Text := c.tree.print c.source

/-- Whether a tag is the annotation `wanted`. Only a namespaced annotation is looked for by its
full name. -/
def isClassTag (c : DocComment) (wanted tagName : Text) : Bool :=
  let wanted := Tag.annotationClass wanted
  let found := Tag.annotationClass tagName
  let resolved := match c.scope with
    | some s => s.resolve found
    | none => found
  wanted.contains '\\' && Text.eqIgnoreCase resolved wanted

/-- The tags called `name`: literally, or as an annotation class through the scope. -/
def tagsNamed (c : DocComment) (name : Text) : List (Tag TypeRef) :=
  let wanted := Tag.normalName name
  c.tree.tags.filter fun t => t.name == wanted || c.isClassTag wanted t.name

def hasTag (c : DocComment) (name : Text) : Bool := !(c.tagsNamed name).isEmpty

/-- The readable values of the tags of exactly this name. -/
def typedValues (c : DocComment) (tagName : Text) : List (TypedValue TypeRef) :=
  (c.tree.tags.filter (·.name == tagName)).filterMap (·.value.typed?)

def varInfo? (c : DocComment) : Option TypeInfo := (c.typedValues "@var").head?.map .ofValue

def returnInfo? (c : DocComment) : Option TypeInfo := (c.typedValues "@return").head?.map .ofValue

end DocComment
end DocTypes
