import DocTypes.Doc.Tree

/-!
Doc comments as text. What was not touched is printed as it was read: the whole comment where
nothing changed, otherwise the source line of each entry that still holds what was read.
-/
namespace DocTypes.DocTree

/-- A content line behind what precedes it; an empty one leaves no blanks behind. -/
def lead (before content : Text) : Text :=
  if content.isEmpty then Text.trimEnd before else before ++ content

def assemble (header : Text) (lines : List Text) (footer lineEnd : Text) : Text :=
  header ++ (lines ++ [footer]).flatMap (lineEnd ++ ·)

/-- The source line if the entry is untouched, otherwise its content as `layout` puts it. -/
def printEntry (layout : Text → Text) (e : Entry) : Text :=
  match e.origin with
  | some o => if e.isUntouched then o.line else layout e.written.render
  | none => layout e.written.render

/-- A comment with the given content lines in the usual frame. -/
def renderLines (contents : List Text) : Text :=
  assemble "/**" (contents.map (lead " * ")) " */" "\n"

/-- Prints a tree that was read from `source`. A tree without content prints as nothing. -/
def print (d : DocTree) (source : Text) : Text :=
  if d.isUnchanged then source
  else if d.isBlank then []
  else
    match d.frame with
    | .inline =>
      match d.entries with
      | [e] => "/** " ++ printEntry id e ++ " */"
      | es => renderLines (es.map (printEntry id))
    | .block b =>
      assemble b.header (d.entries.map (printEntry (lead (b.indent ++ "* "))))
        (b.footer.getD (b.indent ++ "*/")) b.lineEnd

end DocTypes.DocTree
