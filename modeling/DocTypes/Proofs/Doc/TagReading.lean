import DocTypes.Doc.Content
import DocTypes.Proofs.TypeExpr.RoundTrip

/-!
A tag that bears a type, printed and read again: the name is found as it is, and the value is what
its own text reads as.
-/
namespace DocTypes
open Text

lemma continuesTagName_of_isBlank {c : Char} (h : isBlank c) : continuesTagName c = false := by
  have hb : ∀ d ∈ TypeExpr.blanks, continuesTagName d = false :=
    forall_eq_false_of_any (by decide +kernel)
  exact hb c (TypeExpr.mem_blanks_of_isBlank h)

/-- What may follow the name of a tag in its text. -/
def endsTagName (s : Text) : Bool := s.head?.all fun c => !continuesTagName c

lemma takeWhile_append_of_endsTagName {s r : Text} (hs : ∀ c ∈ s, continuesTagName c)
    (hr : endsTagName r) :
    (s ++ r).takeWhile continuesTagName = s ∧ (s ++ r).dropWhile continuesTagName = r := by
  rw [List.takeWhile_append_of_pos hs, List.dropWhile_append_of_pos hs]
  cases r with
  | nil => simp
  | cons c r => simp_all [endsTagName]

namespace Content

/-- The two forms of a tag name, and what is left behind it. -/
lemma readTagName_cases {s n rest : Text} (h : readTagName s = some (n, rest)) :
    ∃ mark c r, (mark = ['@'] ∨ mark = ['@', '\\']) ∧ (c.isAlpha || c == '_') = true ∧
      s = n ++ rest ∧ n = mark ++ c :: r ∧ ∀ d ∈ r, continuesTagName d = true := by
  rw [readTagName.eq_def] at h
  have hr : ∀ r : Text, ∀ d ∈ r.takeWhile continuesTagName, continuesTagName d = true :=
    fun r d hd => List.mem_takeWhile_imp hd
  split at h
  · split at h
    · cases h
      exact ⟨['@', '\\'], _, _, .inr rfl, ‹_›, by simp, rfl, hr _⟩
    · cases h
  · split at h
    · cases h
      exact ⟨['@'], _, _, .inl rfl, ‹_›, by simp, rfl, hr _⟩
    · cases h
  · cases h

lemma append_of_readTagName {s n rest : Text} (h : readTagName s = some (n, rest)) :
    s = n ++ rest := by
  obtain ⟨mark, c, r, -, -, hs, -⟩ := readTagName_cases h
  exact hs

lemma ne_backslash_of_startsTag {c : Char} (h : (c.isAlpha || c == '_') = true) : c ≠ '\\' := by
  rintro rfl
  exact absurd h (by decide)

/-- A name is found in front of anything that does not go on with it. -/
lemma readTagName_append {s n rest : Text} (h : readTagName s = some (n, rest)) {tail : Text}
    (ht : endsTagName tail) : readTagName (n ++ tail) = some (n, tail) := by
  obtain ⟨mark, c, r, hmark, hc, -, rfl, hr⟩ := readTagName_cases h
  obtain ⟨htake, hdrop⟩ := takeWhile_append_of_endsTagName hr ht
  rcases hmark with rfl | rfl
  · simp only [List.cons_append, List.nil_append]
    rw [readTagName]
    · simp [hc, htake, hdrop]
    · intro d r' h'
      exact fun _ => ne_backslash_of_startsTag hc h'
  · simp only [List.cons_append, List.nil_append]
    rw [readTagName]
    simp [hc, htake, hdrop]

/-- White space stands in no tag name. -/
lemma isBlank_of_readTagName {s n rest : Text} (h : readTagName s = some (n, rest)) :
    ∀ c ∈ n, Text.isBlank c = false := by
  obtain ⟨mark, c, r, hmark, hc, -, rfl, hr⟩ := readTagName_cases h
  have hstarts : ∀ d ∈ TypeExpr.blanks, (d.isAlpha || d == '_') = false :=
    forall_eq_false_of_any (by decide)
  simp only [List.forall_mem_append, List.forall_mem_cons]
  refine ⟨fun d hd => ?_, ?_, fun d hd => ?_⟩
  · rcases hmark with rfl | rfl
    · exact forall_eq_false_of_any (by decide) d hd
    · exact forall_eq_false_of_any (by decide) d hd
  · rw [Bool.eq_false_iff]
    intro hb
    simp [hstarts c (TypeExpr.mem_blanks_of_isBlank hb)] at hc
  · rw [Bool.eq_false_iff]
    intro hb
    exact absurd (hr d hd) (by simp [continuesTagName_of_isBlank hb])

lemma solid_of_readTagName {s n rest : Text} (h : readTagName s = some (n, rest)) : Solid n := by
  refine .of_forall (isBlank_of_readTagName h) fun hnil => ?_
  obtain ⟨mark, c, r, -, -, -, hn, -⟩ := readTagName_cases h
  simp [hn] at hnil

end Content

namespace Tag

/-- The value follows the name behind a blank, if it has a text that needs one. -/
lemma exists_render_eq (t : Tag Text) : ∃ b, isAllBlank b ∧ '\n' ∉ b ∧
    t.render = t.name ++ (b ++ t.value.render) ∧ endsTagName (b ++ t.value.render) := by
  rw [render]
  split
  · rename_i h
    exact ⟨[], rfl, List.not_mem_nil, by simp [h], by rw [h]; rfl⟩
  · rename_i r h
    exact ⟨[], rfl, List.not_mem_nil, by rw [h]; rfl, by simp [h, endsTagName]; decide +kernel⟩
  · rename_i c r hc h
    exact ⟨[' '], rfl, by decide, by rw [h]; rfl, by simp [endsTagName]; decide +kernel⟩

end Tag

lemma endsTagName_trimEnd {s : Text} (h : endsTagName s) : endsTagName (trimEnd s) := by
  cases s with
  | nil => rfl
  | cons c s =>
    rcases trimEnd_cons_cases c s with hs | hs
    · rw [hs]
      rfl
    · rw [hs]
      exact h

lemma TypedValue.read_trim (s : Text) : read (trim s) = read s := by
  rw [read, read, trim_trim]

lemma TypedValue.read_blank_append {b : Text} (hb : isAllBlank b) (s : Text) :
    read (b ++ s) = read s := by
  have htrim := trim_between_blanks (b := []) hb rfl s
  rw [List.append_nil] at htrim
  rw [← read_trim, htrim, read_trim]

/-- What follows the name of a tag that bears a type is read as its value. -/
lemma Content.read_name_append {s n rest tail : Text} (hn : readTagName s = some (n, rest))
    (hb : Tag.bearsType n) (hends : endsTagName tail) :
    Content.read (trimEnd (n ++ tail)) = .tag ⟨n, TypedValue.read tail⟩ := by
  rw [(solid_of_readTagName hn).trimEnd_append_left, Content.read,
    readTagName_append hn (endsTagName_trimEnd hends)]
  dsimp only
  rw [if_pos hb, ← TypedValue.read_trim, trim_trimEnd, TypedValue.read_trim]

/-- Reading a printed tag reads the text of its value. -/
theorem Tag.read_render {t : Tag Text} {s rest : Text}
    (hn : Content.readTagName s = some (t.name, rest)) (hbears : Tag.bearsType t.name) :
    Content.read (trimEnd t.render) = .tag ⟨t.name, TypedValue.read t.value.render⟩ := by
  obtain ⟨b, hb, -, hr, hends⟩ := t.exists_render_eq
  rw [hr, Content.read_name_append hn hbears hends, TypedValue.read_blank_append hb]

end DocTypes
