import DocTypes.Doc.Content
import DocTypes.TypeExpr.Resolved

/-!
Doc comments as sequences of content lines inside a frame. An entry that was read from a comment
remembers its source line and what it held then, so that it can be printed as it was.
-/
namespace DocTypes

structure Origin where
  /-- The place among the entries that were read. -/
  index : Nat
  /-- The source line, with what precedes the content. -/
  line : Text
  content : Content Text
  deriving DecidableEq

structure Entry where
  content : Content TypeRef
  origin : Option Origin
  deriving DecidableEq

/-- What surrounds the content of a comment of several lines. -/
structure Block where
  /-- The first line. -/
  header : Text
  lineEnd : Text
  /-- The white space in front of the closing mark. -/
  indent : Text
  /-- The last line, unless content shares it with the closing mark. -/
  footer : Option Text
  deriving DecidableEq

inductive Frame where
  | inline
  | block (b : Block)
  deriving DecidableEq

structure DocTree where
  entries : List Entry
  frame : Frame
  /-- How many entries were read. -/
  readCount : Nat
  deriving DecidableEq

namespace Entry

/-- An entry that was in no comment yet. -/
def new (content : Content TypeRef) : Entry := ⟨content, none⟩

def written (e : Entry) : Content Text := e.content.map TypeRef.written

/-- The entry still holds what was read. -/
def isUntouched (e : Entry) : Bool :=
  match e.origin with
  | some o => o.content = e.written
  | none => false

def isTagNamed (name : Text) (e : Entry) : Bool :=
  match e.content with
  | .tag t => t.name == name
  | .text _ => false

end Entry

namespace DocTree

/-- A comment to be: no content yet, and the usual frame. -/
def blank : DocTree :=
  { entries := []
    frame := .block { header := "/**", lineEnd := "\n", indent := " ", footer := none }
    readCount := 0 }

instance : Inhabited DocTree := ⟨blank⟩

def tags (d : DocTree) : List (Tag TypeRef) := d.entries.filterMap (·.content.tag?)

def mapContents (f : Content TypeRef → Content TypeRef) (d : DocTree) : DocTree :=
  { d with entries := d.entries.map fun e => { e with content := f e.content } }

def mapTags (f : Tag TypeRef → Tag TypeRef) : DocTree → DocTree :=
  mapContents fun
    | .text s => .text s
    | .tag t => .tag (f t)

/-- Replaces the names in the types of all tags. -/
def mapNames (f : TypeRef → TypeRef) : DocTree → DocTree := mapContents (·.map f)

/-- Looks all names up. -/
def resolveIn (scope : Option NameScope) : DocTree → DocTree := mapNames (·.resolveIn scope)

def append (t : Tag TypeRef) (d : DocTree) : DocTree :=
  { d with entries := d.entries ++ [.new (.tag t)] }

/-- Puts a tag at a position, or at the end where the position lies beyond. -/
def insertAt (position : Nat) (t : Tag TypeRef) (d : DocTree) : DocTree :=
  { d with entries := d.entries.take position ++ .new (.tag t) :: d.entries.drop position }

/-- The position behind the last entry that is not blank. -/
def contentEnd (d : DocTree) : Nat := (d.entries.reverse.dropWhile (·.content.isBlank)).length

def insertAfterContent (t : Tag TypeRef) (d : DocTree) : DocTree := d.insertAt d.contentEnd t

/-- The position of the first tag of exactly this name. -/
def position? (name : Text) (d : DocTree) : Option Nat :=
  d.entries.findIdx? (Entry.isTagNamed name)

def removeNamed (name : Text) (d : DocTree) : DocTree :=
  { d with entries := d.entries.filter fun e => !e.isTagNamed name }

/-- Takes an entry out, if the position exists. -/
def removeAt? (position : Nat) (d : DocTree) : Option DocTree :=
  if position < d.entries.length then some { d with entries := d.entries.eraseIdx position }
  else none

/-- Lets two entries change places, if both positions exist. -/
def swap? (i j : Nat) (d : DocTree) : Option DocTree := do
  let a ← d.entries[i]?
  let b ← d.entries[j]?
  return { d with entries := (d.entries.set i b).set j a }

/-- Gives an entry other content, if the position exists. It is still the entry that was read. -/
def setContent? (position : Nat) (content : Content TypeRef) (d : DocTree) : Option DocTree := do
  let e ← d.entries[position]?
  return { d with entries := d.entries.set position { e with content } }

/-- The entries that were read, all of them, untouched and in their order. -/
def isUnchanged (d : DocTree) : Bool :=
  d.entries.length == d.readCount &&
    d.entries.zipIdx.all fun (e, i) => e.isUntouched && e.origin.any (·.index == i)

/-- Nothing but blank lines is left. -/
def isBlank (d : DocTree) : Bool := d.entries.all (·.content.isBlank)

end DocTree
end DocTypes
