import DocTypes.Text.Blank
import Mathlib.Data.List.DropRight
import Mathlib.Tactic.Common

/-!
Trimming: what is dropped is blank, what stays begins and ends solidly, and trimming twice is
trimming once.
-/
namespace DocTypes.Text

lemma dropEnd_eq_rdropWhile (p : Char → Bool) (s : Text) : dropEnd p s = s.rdropWhile p := by
  induction s with
  | nil => rfl
  | cons c r ih =>
    rw [dropEnd, ih, List.rdropWhile, List.rdropWhile, List.reverse_cons, List.dropWhile_append]
    cases h : r.reverse.dropWhile p with
    | nil => by_cases hc : p c <;> simp [hc]
    | cons d l => cases hl : (d :: l).reverse <;> simp_all

lemma trimEnd_eq_rdropWhile (s : Text) : trimEnd s = s.rdropWhile isBlank :=
  dropEnd_eq_rdropWhile _ _

lemma trimEnd_cons (c : Char) (s : Text) :
    trimEnd (c :: s) = match trimEnd s with
      | [] => if isBlank c then [] else [c]
      | kept => c :: kept := rfl

lemma isAllBlank_iff {s : Text} : isAllBlank s = true ↔ ∀ c ∈ s, isBlank c = true := by
  simp [isAllBlank]

lemma notMem_of_isAllBlank {c : Char} (hc : isBlank c = false) {b : Text} (hb : isAllBlank b) :
    c ∉ b := fun hmem => by
  rw [isAllBlank_iff.mp hb c hmem] at hc
  cases hc

@[simp] lemma trimStart_trimStart (s : Text) : trimStart (trimStart s) = trimStart s :=
  List.dropWhile_idempotent _ _

@[simp] lemma trimEnd_trimEnd (s : Text) : trimEnd (trimEnd s) = trimEnd s := by
  simp only [trimEnd_eq_rdropWhile, List.rdropWhile_idempotent]

lemma trimStart_cons {c : Char} (h : isBlank c = false) (s : Text) :
    trimStart (c :: s) = c :: s := List.dropWhile_cons_of_neg (by simp [h])

lemma trimEnd_concat {c : Char} (h : isBlank c = false) (s : Text) :
    trimEnd (s ++ [c]) = s ++ [c] := by
  rw [trimEnd_eq_rdropWhile]
  exact List.rdropWhile_concat_neg _ _ _ (by simp [h])

lemma trimStart_append_of_blank {b : Text} (h : isAllBlank b) (s : Text) :
    trimStart (b ++ s) = trimStart s :=
  List.dropWhile_append_of_pos (isAllBlank_iff.mp h)

lemma trimEnd_append_of_blank {b : Text} (h : isAllBlank b) (s : Text) :
    trimEnd (s ++ b) = trimEnd s := by
  rw [trimEnd_eq_rdropWhile, trimEnd_eq_rdropWhile, List.rdropWhile, List.reverse_append,
    List.dropWhile_append_of_pos (by simpa using isAllBlank_iff.mp h)]
  rfl

lemma trimStart_eq_nil_iff {s : Text} : trimStart s = [] ↔ isAllBlank s = true := by
  rw [isAllBlank_iff]
  exact List.dropWhile_eq_nil_iff

lemma trimEnd_eq_nil_iff {s : Text} : trimEnd s = [] ↔ isAllBlank s = true := by
  rw [trimEnd_eq_rdropWhile, isAllBlank_iff, List.rdropWhile_eq_nil_iff]

/-- Only blanks are dropped behind. -/
lemma exists_trimEnd_append_blank (s : Text) : ∃ b, isAllBlank b = true ∧ s = trimEnd s ++ b := by
  refine ⟨s.rtakeWhile isBlank, ?_, ?_⟩
  · rw [isAllBlank_iff]
    intro c hc
    exact List.mem_rtakeWhile_imp hc
  · rw [trimEnd_eq_rdropWhile]
    exact List.rdropWhile_append_rtakeWhile.symm

/-- Only blanks are dropped around a text. -/
lemma exists_blanks_trim (s : Text) :
    ∃ a b, isAllBlank a = true ∧ isAllBlank b = true ∧ s = a ++ trim s ++ b := by
  obtain ⟨b, hb, hs⟩ := exists_trimEnd_append_blank (trimStart s)
  refine ⟨s.takeWhile isBlank, b, List.all_takeWhile, hb, ?_⟩
  rw [List.append_assoc, trim, ← hs, trimStart, List.takeWhile_append_dropWhile]

/-- Not empty, with neither a blank in front nor one behind. -/
structure Solid (s : Text) : Prop where
  head : ∃ c r, s = c :: r ∧ isBlank c = false
  last : ∃ r c, s = r ++ [c] ∧ isBlank c = false

namespace Solid

variable {s t : Text}

lemma ne_nil (h : Solid s) : s ≠ [] := by
  obtain ⟨c, r, rfl, -⟩ := h.head
  simp

lemma trimStart_append (h : Solid s) (t : Text) : trimStart (s ++ t) = s ++ t := by
  obtain ⟨c, r, rfl, hc⟩ := h.head
  exact trimStart_cons hc _

lemma trimEnd_append (h : Solid s) (t : Text) : trimEnd (t ++ s) = t ++ s := by
  obtain ⟨r, c, rfl, hc⟩ := h.last
  rw [← List.append_assoc]
  exact trimEnd_concat hc _

lemma trimStart_eq (h : Solid s) : trimStart s = s := by simpa using h.trimStart_append []

lemma trimEnd_eq (h : Solid s) : trimEnd s = s := by simpa using h.trimEnd_append []

lemma trim_eq (h : Solid s) : trim s = s := by rw [trim, h.trimStart_eq, h.trimEnd_eq]

/-- Whatever stands between two solid texts, the whole is solid. -/
lemma between (hs : Solid s) (m : Text) (ht : Solid t) : Solid (s ++ m ++ t) := by
  obtain ⟨c, r, rfl, hc⟩ := hs.head
  obtain ⟨r', c', rfl, hc'⟩ := ht.last
  exact ⟨⟨c, r ++ m ++ (r' ++ [c']), by simp, hc⟩, ⟨c :: r ++ m ++ r', c', by simp, hc'⟩⟩

lemma append (hs : Solid s) (ht : Solid t) : Solid (s ++ t) := by
  simpa using hs.between [] ht

lemma singleton {c : Char} (h : isBlank c = false) : Solid [c] :=
  ⟨⟨c, [], rfl, h⟩, ⟨[], c, rfl, h⟩⟩

lemma cons {c : Char} (h : isBlank c = false) (hs : Solid s) : Solid (c :: s) :=
  (singleton h).append hs

lemma of_forall (h : ∀ c ∈ s, isBlank c = false) (hne : s ≠ []) : Solid s := by
  obtain ⟨c, r, hc⟩ := List.exists_cons_of_ne_nil hne
  exact ⟨⟨c, r, hc, h c (by simp [hc])⟩, s.dropLast, s.getLast hne,
    (List.dropLast_append_getLast hne).symm, h _ (List.getLast_mem hne)⟩

end Solid

lemma trimStart_head (s : Text) (h : trimStart s ≠ []) :
    ∃ c r, trimStart s = c :: r ∧ isBlank c = false := by
  cases hs : trimStart s with
  | nil => exact absurd hs h
  | cons c r =>
    have hc := List.head?_dropWhile_not isBlank s
    rw [show List.dropWhile isBlank s = c :: r from hs] at hc
    exact ⟨c, r, rfl, hc⟩

lemma trimEnd_last (s : Text) (h : trimEnd s ≠ []) :
    ∃ r c, trimEnd s = r ++ [c] ∧ isBlank c = false := by
  rw [trimEnd_eq_rdropWhile] at h ⊢
  refine ⟨_, _, (List.dropLast_append_getLast h).symm, ?_⟩
  simpa using List.rdropWhile_last_not _ _ h

lemma Solid.trimEnd_append_left {s : Text} (hs : Solid s) (t : Text) :
    trimEnd (s ++ t) = s ++ trimEnd t := by
  obtain ⟨b, hb, ht⟩ := exists_trimEnd_append_blank t
  by_cases hne : trimEnd t = []
  · rw [hne, List.nil_append] at ht
    rw [hne, ht, trimEnd_append_of_blank hb, hs.trimEnd_eq, List.append_nil]
  · obtain ⟨r, c, hc, hc'⟩ := trimEnd_last t hne
    rw [ht, ← List.append_assoc, trimEnd_append_of_blank hb, trimEnd_append_of_blank hb, hc,
      trimEnd_concat hc', ← List.append_assoc, trimEnd_concat hc']

lemma trimEnd_append_of_trimEnd_eq {t : Text} (h : trimEnd t = t) (hne : t ≠ []) (s : Text) :
    trimEnd (s ++ t) = s ++ t := by
  obtain ⟨r, c, ht, hc⟩ := trimEnd_last t (h.symm ▸ hne)
  rw [← h, ht, ← List.append_assoc, trimEnd_concat hc]

lemma Solid.trim_append {s : Text} (hs : Solid s) (t : Text) : trim (s ++ t) = s ++ trimEnd t := by
  rw [trim, hs.trimStart_append, hs.trimEnd_append_left]

/-- Trimming the end leaves the beginning. -/
lemma trimEnd_cons_cases (c : Char) (s : Text) :
    trimEnd (c :: s) = [] ∨ trimEnd (c :: s) = c :: trimEnd s := by
  rw [trimEnd_cons]
  cases trimEnd s with
  | nil => by_cases hc : isBlank c <;> simp [hc]
  | cons d r => exact .inr rfl

/-- It does not matter which end is trimmed first. -/
lemma trimStart_trimEnd (s : Text) : trimStart (trimEnd s) = trimEnd (trimStart s) := by
  induction s with
  | nil => rfl
  | cons c r ih =>
    simp only [trimStart, trimEnd, dropEnd] at ih ⊢
    by_cases hc : isBlank c
    · cases h : dropEnd isBlank r <;> simp_all
    · cases h : dropEnd isBlank r <;> simp [hc, h, dropEnd]

@[simp] lemma trim_trim (s : Text) : trim (trim s) = trim s := by
  simp only [trim, trimStart_trimEnd, trimStart_trimStart, trimEnd_trimEnd]

@[simp] lemma trimEnd_trim (s : Text) : trimEnd (trim s) = trim s := trimEnd_trimEnd _

@[simp] lemma trimStart_trim (s : Text) : trimStart (trim s) = trim s := by
  rw [trim, trimStart_trimEnd, trimStart_trimStart]

@[simp] lemma trim_trimEnd (s : Text) : trim (trimEnd s) = trim s := by
  rw [trim, trimStart_trimEnd, trimEnd_trimEnd, ← trim]

lemma trim_eq_nil_iff {s : Text} : trim s = [] ↔ isAllBlank s = true := by
  rw [trim, trimEnd_eq_nil_iff, ← trimStart_eq_nil_iff, ← trimStart_eq_nil_iff,
    trimStart_trimStart]

/-- What trimming leaves is solid, if it leaves anything. -/
lemma solid_trim {s : Text} (h : trim s ≠ []) : Solid (trim s) := by
  refine ⟨?_, trimEnd_last _ h⟩
  rw [← trimStart_trim] at h ⊢
  exact trimStart_head _ h

/-- White space around a text does not matter. -/
lemma trim_between_blanks {a b : Text} (ha : isAllBlank a) (hb : isAllBlank b) (s : Text) :
    trim (a ++ s ++ b) = trim s := by
  rw [trim, List.append_assoc, trimStart_append_of_blank ha, ← trimStart_trimEnd,
    trimEnd_append_of_blank hb, trimStart_trimEnd, ← trim]

lemma mem_of_mem_trimEnd {c : Char} {s : Text} (h : c ∈ trimEnd s) : c ∈ s := by
  obtain ⟨b, -, hs⟩ := exists_trimEnd_append_blank s
  rw [hs]
  exact List.mem_append_left b h

lemma mem_of_mem_trimStart {c : Char} {s : Text} (h : c ∈ trimStart s) : c ∈ s :=
  (List.dropWhile_sublist _).mem h

lemma mem_of_mem_trim {c : Char} {s : Text} (h : c ∈ trim s) : c ∈ s :=
  mem_of_mem_trimStart (mem_of_mem_trimEnd h)

lemma forall_eq_false_of_any {p : Char → Bool} {s : Text} (h : s.any p = false) :
    ∀ c ∈ s, p c = false := by
  simpa using h

lemma trimEnd_of_suffix {r s : Text} (h : r <:+ s) (hs : trimEnd s = s) : trimEnd r = r := by
  obtain ⟨q, rfl⟩ := h
  by_cases hr : trimEnd r = []
  · have hb := trimEnd_append_of_blank (trimEnd_eq_nil_iff.mp hr) q
    have hlen := congrArg List.length (hs.symm.trans hb)
    have hle : (trimEnd q).length ≤ q.length := by
      rw [trimEnd_eq_rdropWhile]
      exact (List.rdropWhile_prefix _ q).length_le
    rw [List.length_append] at hlen
    obtain rfl : r = [] := List.eq_nil_of_length_eq_zero (by omega)
    rfl
  · obtain ⟨b, hb, hrb⟩ := exists_trimEnd_append_blank r
    have hq : trimEnd (q ++ r) = q ++ trimEnd r := by
      conv_lhs => rw [hrb, ← List.append_assoc, trimEnd_append_of_blank hb]
      exact trimEnd_append_of_trimEnd_eq (trimEnd_trimEnd r) hr q
    exact List.append_cancel_left (hq.symm.trans hs)

end DocTypes.Text
