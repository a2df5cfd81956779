import DocTypes.Text.Blank

/-!
Names as they stand in a type position: segments joined by backslashes, rooted when they begin
with one, and the words that never name a class.
-/
namespace DocTypes.Name

/-- The name without the backslashes in front. -/
def unrooted (name : Text) : Text := name.dropWhile (· == '\\')

/-- The last segment; a name that ends with a backslash is its own short form. -/
def short (name : Text) : Text :=
  match Text.afterLast '\\' (unrooted name) with
  | [] => unrooted name
  | segment => segment

/-- Two segments or more. -/
def isNamespaced (name : Text) : Bool := (unrooted name).contains '\\'

/-- The name with exactly one backslash in front. -/
def rooted (name : Text) : Text := '\\' :: unrooted name

def reservedWords : List Text :=
  ["string", "int", "integer", "float", "double", "bool", "boolean", "true", "false", "null",
   "array", "iterable", "callable", "object", "mixed", "void", "never", "resource", "self",
   "static", "parent", "$this", "scalar", "numeric", "list", "array-key", "class-string",
   "non-empty-array", "non-empty-string", "positive-int"]

/-- Drops array brackets from a name that is spelled backwards. -/
def dropBracketsRev : Text → Text
  | ']' :: '[' :: r => dropBracketsRev r
  | r => r

/-- The name before any `[]` at its end. -/
def withoutBrackets (name : Text) : Text := (dropBracketsRev name.reverse).reverse

/-- Whether a type is one of the reserved words, in any case and with any array brackets. -/
def isReserved (name : Text) : Bool :=
  reservedWords.contains (Text.lower (withoutBrackets (Text.trim name)))

end DocTypes.Name
