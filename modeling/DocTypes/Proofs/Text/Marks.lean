import DocTypes.Proofs.Text.Lines

/-!
The mark that closes a comment. A text in which it does not occur can stand in a comment; texts are
put together to such a text as long as no asterisk meets a slash.
-/
namespace DocTypes.Text

/-- The mark `*/` does not occur. -/
def IsUnclosed (s : Text) : Prop := ¬ ['*', '/'] <:+: s

instance (s : Text) : Decidable (IsUnclosed s) := inferInstanceAs (Decidable (¬ ['*', '/'] <:+: s))

lemma IsUnclosed.of_isInfix {s t : Text} (h : IsUnclosed s) (ht : t <:+: s) : IsUnclosed t :=
  fun hmark => h (hmark.trans ht)

lemma isUnclosed_of_notMem {s : Text} (h : '/' ∉ s) : IsUnclosed s :=
  fun hmark => h (hmark.subset (by simp))

/-- By induction over the first text, at whose end the asterisk would be. -/
lemma IsUnclosed.append {s t : Text} (hs : IsUnclosed s) (ht : IsUnclosed t)
    (h : s.getLast? ≠ some '*' ∨ t.head? ≠ some '/') : IsUnclosed (s ++ t) := by
  induction s with
  | nil => exact ht
  | cons c s ih =>
    rw [IsUnclosed, List.cons_append, List.infix_cons_iff, not_or]
    refine ⟨fun hp => ?_, ih (hs.of_isInfix (List.suffix_cons c s).isInfix) ?_⟩
    · obtain ⟨rfl, hslash⟩ := List.cons_prefix_cons.mp hp
      cases s with
      | nil =>
        obtain ⟨r, hr⟩ := hslash
        obtain rfl : '/' :: r = t := hr
        simp at h
      | cons d s =>
        obtain ⟨rfl, -⟩ := List.cons_prefix_cons.mp hslash
        exact hs ⟨[], s, rfl⟩
    · cases s with
      | nil => simp
      | cons d s => simpa using h

lemma isUnclosed_append_iff {s t : Text} (h : s.getLast? ≠ some '*' ∨ t.head? ≠ some '/') :
    IsUnclosed (s ++ t) ↔ IsUnclosed s ∧ IsUnclosed t :=
  ⟨fun hu => ⟨hu.of_isInfix (List.prefix_append s t).isInfix,
    hu.of_isInfix (List.suffix_append s t).isInfix⟩, fun hu => hu.1.append hu.2 h⟩

/-- The mark occurs at most at the end. -/
lemma isUnclosed_iff_of_dropLast {s : Text} (h : IsUnclosed s.dropLast) :
    IsUnclosed s ↔ endsWith "*/" s = false := by
  rw [IsUnclosed, Bool.eq_false_iff, not_iff_not, endsWith_iff]
  refine ⟨fun hmark => ?_, fun ⟨r, hr⟩ => ⟨r, [], by simpa using hr⟩⟩
  rcases List.eq_nil_or_concat' s with rfl | ⟨r, c, rfl⟩
  · simp at hmark
  · rw [List.dropLast_concat] at h
    exact (List.infix_concat_iff.mp hmark).resolve_right h

/-- White space holds no mark. -/
lemma isUnclosed_of_isAllBlank {s : Text} (h : isAllBlank s) : IsUnclosed s :=
  isUnclosed_of_notMem (notMem_of_isAllBlank (by decide) h)

/-- Lines that hold no mark hold none together. -/
lemma isUnclosed_joinLines_iff {lineEnd first : Text} {rest : List Text} (he : IsLineEnd lineEnd) :
    IsUnclosed (joinLines lineEnd first rest) ↔ ∀ l ∈ first :: rest, IsUnclosed l := by
  induction rest generalizing first with
  | nil => simp
  | cons l rest ih =>
    have hend : IsUnclosed lineEnd ∧ lineEnd.head? ≠ some '/' ∧
        (first ++ lineEnd).getLast? ≠ some '*' := by
      rcases he with rfl | rfl <;> simp <;> decide
    rw [joinLines_cons, isUnclosed_append_iff (.inl hend.2.2), isUnclosed_append_iff (.inr hend.2.1),
      ih, and_iff_left hend.1, List.forall_mem_cons (a := first)]

/-! What a text begins with behind white space. -/

lemma trimEnd_isPrefix (s : Text) : trimEnd s <+: s := by
  obtain ⟨b, -, hs⟩ := exists_trimEnd_append_blank s
  exact ⟨b, hs.symm⟩

lemma trim_isInfix (s : Text) : trim s <:+: s :=
  (trimEnd_isPrefix _).isInfix.trans (List.dropWhile_suffix _).isInfix

lemma trimStart_append {s : Text} (hs : ¬ isAllBlank s) (t : Text) :
    trimStart (s ++ t) = trimStart s ++ t := by
  have hne : ¬ (List.dropWhile isBlank s).isEmpty := by
    rwa [List.isEmpty_iff, ← trimStart, trimStart_eq_nil_iff]
  rw [trimStart, List.dropWhile_append, if_neg hne]
  rfl

lemma startsWith_trimStart_append {p s : Text} (hp : p ≠ []) (h : startsWith p (trimStart s))
    (t : Text) : startsWith p (trimStart (s ++ t)) := by
  obtain ⟨r, hr⟩ := startsWith_iff.mp h
  have hs : ¬ isAllBlank s := by
    rw [← trimStart_eq_nil_iff, ← hr]
    simp [hp]
  exact startsWith_iff.mpr ⟨r ++ t, by rw [trimStart_append hs, ← hr, List.append_assoc]⟩

lemma startsWith_trimStart_trimEnd {p s : Text} (hp : Solid p) (h : startsWith p (trimStart s)) :
    startsWith p (trimStart (trimEnd s)) := by
  obtain ⟨r, hr⟩ := startsWith_iff.mp h
  exact startsWith_iff.mpr ⟨trimEnd r, by rw [trimStart_trimEnd, ← hr, hp.trimEnd_append_left]⟩

/-- Behind blank lines. -/
lemma trimStart_joinLines {lineEnd first : Text} {blanks : List Text} (he : IsLineEnd lineEnd)
    (hf : isAllBlank first) (hb : ∀ b ∈ blanks, isAllBlank b) (l : Text) :
    trimStart (joinLines lineEnd first (blanks ++ [l])) = trimStart l := by
  have hblank : ∀ b, isAllBlank b → isAllBlank (b ++ lineEnd) := by
    intro b hb
    rcases he with rfl | rfl <;> simp_all [isAllBlank] <;> decide
  induction blanks generalizing first with
  | nil => rw [List.nil_append, joinLines_cons, joinLines_nil, trimStart_append_of_blank (hblank _ hf)]
  | cons b blanks ih =>
    rw [List.forall_mem_cons] at hb
    rw [List.cons_append, joinLines_cons, trimStart_append_of_blank (hblank _ hf), ih hb.1 hb.2]

/-- What a text begins with stands in front of a character that is no part of it. -/
lemma startsWith_trimStart_of_append {p s t : Text} {c : Char} (hc : c ∉ p) (hs : ¬ isAllBlank s)
    (h : startsWith p (trimStart (s ++ c :: t))) : startsWith p (trimStart s) := by
  rw [trimStart_append hs, startsWith, List.isPrefixOf_iff_prefix] at h
  rw [startsWith, List.isPrefixOf_iff_prefix]
  rcases List.prefix_or_prefix_of_prefix h (List.prefix_append (trimStart s) (c :: t)) with hp | hp
  · exact hp
  · obtain ⟨q, rfl⟩ := hp
    cases q with
    | nil => exact ⟨[], by simp⟩
    | cons d q =>
      obtain ⟨rfl, -⟩ := List.cons_prefix_cons.mp ((List.prefix_append_right_inj _).mp h)
      simp at hc

end DocTypes.Text
