import DocTypes.Text.Basic

/-!
White space (the Unicode property `White_Space`) and trimming.
-/
namespace DocTypes.Text

/-- Tab to carriage return, the space, and the wider spaces and line separators. The zero-width
space U+200B and the byte order mark U+FEFF are not among them. -/
def blankRanges : List (Nat × Nat) :=
  [(0x9, 0xD), (0x20, 0x20), (0x85, 0x85), (0xA0, 0xA0), (0x1680, 0x1680), (0x2000, 0x200A),
   (0x2028, 0x2029), (0x202F, 0x202F), (0x205F, 0x205F), (0x3000, 0x3000)]

def isBlank (c : Char) : Bool := inRanges blankRanges c

def trimStart (s : Text) : Text := s.dropWhile isBlank

def trimEnd (s : Text) : Text := dropEnd isBlank s

def trim (s : Text) : Text := trimEnd (trimStart s)

/-- Nothing but white space. -/
def isAllBlank (s : Text) : Bool := s.all isBlank

end DocTypes.Text
