import DocTypes.Doc.Tree

/-!
Doc comments from text. Text that is not enclosed in `/**` and `*/` is one entry of free text.
-/
namespace DocTypes.DocTree

/-- A content line as read, with the source line it stands in. -/
structure SourceLine where
  content : Content Text
  line : Text

def SourceLine.entry (l : SourceLine) (index : Nat) : Entry :=
  ⟨l.content.map TypeRef.ofWritten, some ⟨index, l.line, l.content⟩⟩

def ofLines (frame : Frame) (lines : List SourceLine) : DocTree :=
  ⟨lines.mapIdx fun i l => l.entry i, frame, lines.length⟩

/-- Whether trimmed text is a doc comment. `/**/` is too short for one. -/
def isDocComment (s : Text) : Bool :=
  Text.startsWith "/**" s && Text.endsWith "*/" s && 5 ≤ s.length

/-- The lines of a text, whatever their line ends. -/
def sourceLines (s : Text) : List Text :=
  (Text.splitOn '\n' s).map fun l => (Text.before? "\r" l).getD l

def lineEndOf (s : Text) : Text := if Text.occursIn "\r\n" s then "\r\n" else "\n"

/-- The content behind an asterisk and one blank, or behind white space where there is no
asterisk. -/
def lineContent (line : Text) : Text :=
  Text.trimEnd <| match Text.trimStart line with
    | '*' :: c :: r => if Text.isBlank c then r else c :: r
    | '*' :: [] => []
    | r => r

def contentLine (line : Text) : SourceLine := ⟨.read (lineContent line), Text.trimEnd line⟩

def readInline (trimmed : Text) : DocTree :=
  let content := Text.trim ((trimmed.drop 3).take (trimmed.length - 5))
  ofLines .inline (if content.isEmpty then [] else [⟨.read content, content⟩])

/-- The first and the last line may share content with the marks. Content of the first line is
taken as if it stood on a line of its own. -/
def readBlock (first : Text) (middle : List Text) (last lineEnd : Text) : DocTree :=
  let beforeMark := (Text.before? "*/" (Text.trimEnd last)).getD last
  let closed := Text.isAllBlank beforeMark
  let indent := beforeMark.takeWhile Text.isBlank
  let opening := (Text.after? "/**" (Text.trimStart first)).getD first
  let summary := Text.trim opening
  let bare := Text.isAllBlank opening
  ofLines
    (.block
      { header := if bare then Text.trimEnd first else "/**"
        lineEnd
        indent
        footer := if closed then some (Text.trimEnd last) else none })
    ((if bare then [] else [⟨.read summary, indent ++ "* " ++ summary⟩]) ++
      middle.map contentLine ++
      (if closed then [] else [contentLine (Text.trimEnd beforeMark)]))

def read (s : Text) : DocTree :=
  if isDocComment (Text.trim s) then
    match sourceLines (Text.trimEnd s) with
    | first :: second :: rest =>
      readBlock first (second :: rest).dropLast ((second :: rest).getLast nofun) (lineEndOf s)
    | _ => readInline (Text.trim s)
  else ofLines .inline [⟨.text s, s⟩]

end DocTypes.DocTree
