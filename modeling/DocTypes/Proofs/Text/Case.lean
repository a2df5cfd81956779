import DocTypes.Text.Basic
import Mathlib.Tactic.Common

/-!
Letter case. It matters to the letters alone.
-/
namespace DocTypes.Text

lemma eqIgnoreCase_iff {s t : Text} : eqIgnoreCase s t = true ↔ lower s = lower t := by
  rw [eqIgnoreCase, beq_iff_eq]

lemma eqIgnoreCase_append_right (s t r : Text) :
    eqIgnoreCase (s ++ r) (t ++ r) = eqIgnoreCase s t := by
  rw [Bool.eq_iff_iff, eqIgnoreCase_iff, eqIgnoreCase_iff, lower, lower, List.map_append,
    List.map_append, List.append_cancel_right_eq]
  rfl

/-- What is not a letter is not made by letter case, and stays as it is. -/
lemma toLower_eq_iff {b : Char} (hb : b.isAlpha = false) (c : Char) : c.toLower = b ↔ c = b := by
  have hletter : ¬ (65 ≤ b.val.toNat ∧ b.val.toNat ≤ 90 ∨ 97 ≤ b.val.toNat ∧ b.val.toNat ≤ 122) := by
    intro h
    rw [Bool.eq_false_iff] at hb
    have hcase : b.isUpper ∨ b.isLower :=
      h.imp (fun h => decide_eq_true ⟨h.1, h.2⟩) fun h =>
        Bool.and_eq_true_iff.mpr ⟨decide_eq_true h.1, decide_eq_true h.2⟩
    exact hb (Bool.or_eq_true_iff.mpr hcase)
  unfold Char.toLower
  split
  · rename_i h
    have hlow : c.val.toNat ≤ 90 := h.2
    have hhigh : 65 ≤ c.val.toNat := h.1
    constructor
    · intro hc
      have hsum : (c.val + ('a'.val - 'A'.val)).toNat = b.val.toNat :=
        congrArg (fun c : Char => c.val.toNat) hc
      have hgap : ('a'.val - 'A'.val).toNat = 32 := rfl
      rw [UInt32.toNat_add, hgap] at hsum
      omega
    · rintro rfl
      exact absurd (.inl ⟨hhigh, hlow⟩) hletter
  · rfl

/-- Only capital letters have another case to be put in. -/
lemma isUpper_of_toLower_ne {c : Char} (h : c.toLower ≠ c) : c.isUpper := by
  unfold Char.toLower at h
  split at h
  · exact decide_eq_true ‹_›
  · exact absurd rfl h

lemma mem_lower {b : Char} (hb : b.isAlpha = false) {s : Text} : b ∈ lower s ↔ b ∈ s := by
  simp [lower, toLower_eq_iff hb]

end DocTypes.Text
