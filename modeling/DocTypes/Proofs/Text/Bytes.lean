import DocTypes.Text.Basic
import Mathlib.Data.List.Infix
import Mathlib.Tactic.Common

/-!
Positions in a text, counted in bytes. A text can be cut at a position between two of its characters
only, and these are the positions that are valid in its UTF-8 encoding.
-/
namespace DocTypes.Text

/-- The text cut behind its first `n` bytes, unless these end inside of a character or the text ends
before. -/
def cutAt? : Nat → Text → Option (Text × Text)
  | 0, s => some ([], s)
  | _ + 1, [] => none
  | n + 1, c :: r =>
    if c.utf8Size ≤ n + 1 then
      (cutAt? (n + 1 - c.utf8Size) r).map fun y => (c :: y.1, y.2)
    else none

/-- The position at which `rest` begins, the last part of `s`. -/
def offset (s rest : Text) : Nat := utf8Size s - utf8Size rest

variable {s p r : Text} {c : Char} {n : Nat}

lemma cutAt?_append (p r : Text) : cutAt? (utf8Size p) (p ++ r) = some (p, r) := by
  induction p with
  | nil => simp [utf8Size, cutAt?]
  | cons c p ih =>
    obtain ⟨k, hk⟩ : ∃ k, c.utf8Size = k + 1 := ⟨c.utf8Size - 1, by have := c.utf8Size_pos; omega⟩
    have hn : utf8Size (c :: p) = k + utf8Size p + 1 := by rw [utf8Size, hk]; omega
    have hrest : k + utf8Size p + 1 - c.utf8Size = utf8Size p := by omega
    rw [hn, List.cons_append, cutAt?, if_pos (by omega), hrest, ih]
    rfl

lemma eq_append_of_cutAt? (h : cutAt? n s = some (p, r)) : s = p ++ r ∧ utf8Size p = n := by
  fun_induction cutAt? n s generalizing p with
  | case1 s =>
    cases h
    exact ⟨rfl, rfl⟩
  | case2 => cases h
  | case3 n c s hc ih =>
    obtain ⟨⟨q, t⟩, hq, hcut⟩ := Option.map_eq_some_iff.mp h
    cases hcut
    obtain ⟨rfl, hn⟩ := ih hq
    refine ⟨rfl, ?_⟩
    dsimp only
    rw [utf8Size]
    omega
  | case4 => cases h

lemma cutAt?_eq_some_iff : cutAt? n s = some (p, r) ↔ s = p ++ r ∧ utf8Size p = n := by
  refine ⟨eq_append_of_cutAt?, ?_⟩
  rintro ⟨rfl, rfl⟩
  exact cutAt?_append p r

lemma utf8Size_eq_utf8ByteSize (s : Text) : utf8Size s = (String.ofList s).utf8ByteSize := by
  induction s with
  | nil => rfl
  | cons c s ih =>
    rw [utf8Size, ih, ← List.singleton_append, String.ofList_append, String.utf8ByteSize_append,
      ← String.singleton_eq_ofList, String.utf8ByteSize_singleton]

/-- A text can be cut where a character of its encoding begins, and at the end. -/
theorem isValid_iff_exists_cutAt? :
    (⟨n⟩ : String.Pos.Raw).IsValid (String.ofList s) ↔ ∃ p r, cutAt? n s = some (p, r) := by
  simp only [String.Pos.Raw.isValid_iff_exists_take_toList, String.toList_ofList,
    ← utf8Size_eq_utf8ByteSize, cutAt?_eq_some_iff]
  constructor
  · rintro ⟨i, rfl⟩
    exact ⟨s.take i, s.drop i, (List.take_append_drop i s).symm, rfl⟩
  · rintro ⟨p, r, rfl, rfl⟩
    exact ⟨p.length, by rw [List.take_left']; rfl⟩

lemma offset_append (p r : Text) : offset (p ++ r) r = utf8Size p := by
  rw [offset, utf8Size_append]
  omega

@[simp] lemma offset_self (s : Text) : offset s s = 0 := Nat.sub_self _

lemma offset_eq_offset_cons (h : c :: r <:+ s) : offset s r = offset s (c :: r) + c.utf8Size := by
  obtain ⟨p, rfl⟩ := h
  rw [offset_append, List.append_cons, offset_append, utf8Size_append]
  rfl

/-- The text can be cut where a last part of it begins. -/
lemma exists_cutAt?_offset (h : r <:+ s) : ∃ p, s = p ++ r ∧ cutAt? (offset s r) s = some (p, r) := by
  obtain ⟨p, rfl⟩ := h
  exact ⟨p, rfl, by rw [offset_append, cutAt?_append]⟩

end DocTypes.Text
