import DocTypes.Doc.Content
import DocTypes.Proofs.TypeExpr.Positions

/-!
The value of a tag is cut behind its type, at the position where reading the type ends. That is between
two characters, whatever the value.
-/
namespace DocTypes
open Text

/-- A type, then a variable if one follows, then a description; what follows the type is what the text
holds from its position on. -/
def TypedValue.readAt (s : Text) : Except TypeExpr.Halt (TagValue Text) :=
  match TypeExpr.Cursor.readPrefix (trim s) with
  | .error (.mismatch _) => .ok (.malformed (trim s))
  | .error e => .error e
  | .ok (t, n) => do
    let tail := trimStart (← TypeExpr.Cursor.restAt (trim s) n)
    return if startsVariable tail then
        .typed ⟨t, some (tail.takeWhile (!isBlank ·)), trim (tail.dropWhile (!isBlank ·))⟩
      else .typed ⟨t, none, tail⟩

lemma TypedValue.readAt_eq (s : Text) : TypedValue.readAt s = .ok (TypedValue.read s) := by
  rw [readAt, TypeExpr.cursor_readPrefix_eq, TypeExpr.prefixEnd, read]
  cases h : TypeExpr.readPrefix (trim s) with
  | error e => rfl
  | ok y =>
    obtain ⟨t, r⟩ := y
    have hrest := TypeExpr.Cursor.restAt_offset (TypeExpr.suffix_of_readPrefix h)
    simp only [Except.map, Except.mapError, bind, Except.bind, hrest]
    split <;> rfl

/-- Reading by positions in bytes gives the answers of reading by the text that is left, for every text:
it cuts no text inside of a character, and each of its loops ends. The positions in these answers are
exact. -/
theorem TypeExpr.cursor_answers_and_isExact (s : Text) :
    Cursor.readPrefix s = (prefixEnd s).mapError .mismatch ∧ IsExact s (prefixEnd s) ∧
    Cursor.read s = (read s).mapError .mismatch ∧
    IsExact (trim s) ((read s).map fun t => (t, utf8Size (trim s))) ∧
    TypedValue.readAt s = .ok (TypedValue.read s) :=
  ⟨cursor_readPrefix_eq s, isExact_prefixEnd s, cursor_read_eq s, isExact_read s,
    TypedValue.readAt_eq s⟩

example : TypeExpr.prefixEnd "Größe[]|€" = .error (.unexpectedChar '€' 10) := by decide +kernel

end DocTypes
