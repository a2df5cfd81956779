import DocTypes.Doc.Slot

/-!
Edits of the tags in the doc comment of a declaration. Every edit yields the new slot and whether
the comment was written anew.
-/
namespace DocTypes.DocSlot

/-- Stores the comment as printed, where that differs from what is there. A comment without
content is taken away. -/
def writeBack (s : DocSlot) (c : DocComment) : DocSlot × Bool :=
  match s.text with
  | none => (s, false)
  | some current =>
    match c.print with
    | [] => ({ s with text := none }, true)
    | printed =>
      if printed = current then (s, false) else ({ s with text := some printed }, true)

/-- Changes the tree of the comment, if there is one. -/
def editTree (f : DocTree → DocTree) (s : DocSlot) : DocSlot × Bool :=
  match s.comment? with
  | none => (s, false)
  | some c => s.writeBack { c with tree := f c.tree }

/-- A comment of its own for a tag. -/
def create (t : Tag Text) (s : DocSlot) : DocSlot × Bool :=
  ({ s with text := some (DocTree.renderLines [t.render]) }, true)

/-- Adds a tag at the end, in a comment of its own where there is none. -/
def addTag (t : Tag Text) (s : DocSlot) : DocSlot × Bool :=
  if s.text.isSome then s.editTree (·.append (t.map .ofWritten)) else s.create t

def removeTag (name : Text) : DocSlot → DocSlot × Bool :=
  editTree (·.removeNamed (Tag.normalName name))

/-- The first run of characters that are not blank. -/
def firstWord (s : Text) : Text := (Text.trimStart s).takeWhile (!Text.isBlank ·)

/-- Whether an entry is the tag of a parameter, `$` included. A tag whose type cannot be read
belongs to the parameter it starts with. -/
def isParamEntry (param : Text) (e : Entry) : Bool :=
  match e.content with
  | .text _ => false
  | .tag t =>
    t.name == "@param" &&
      match t.value with
      | .typed v => v.variableName == some param
      | .malformed s => firstWord s == param
      | .plain _ => false

/-- Removes the tags of a parameter, given with or without `$`. -/
def removeParam (name : Text) : DocSlot → DocSlot × Bool :=
  let param := '$' :: name.dropWhile (· == '$')
  editTree fun d => { d with entries := d.entries.filter (!isParamEntry param ·) }

/-- Gives every tag of one name another. -/
def renameTag (old new : Text) : DocSlot → DocSlot × Bool :=
  editTree <| DocTree.mapTags fun t =>
    if t.name = Tag.normalName old then { t with name := Tag.normalName new } else t

end DocTypes.DocSlot
