import DocTypes.Proofs.Doc.Entries
import DocTypes.Proofs.Doc.TagReading

/-!
What stands behind an `@` somewhere in a comment. Between the lines of a comment, and around them,
is nothing that a tag could begin or go on with, so a comment has what one of its lines has.
-/
namespace DocTypes
open Text

/-- The character is no part of a tag, with its `@` and its backslash. -/
def IsOutsideTags (c : Char) : Prop := continuesTagName c = false ∧ c ≠ '@'

lemma isOutsideTags_of_isBlank {c : Char} (h : isBlank c) : IsOutsideTags c := by
  refine ⟨continuesTagName_of_isBlank h, ?_⟩
  rintro rfl
  exact absurd h (by decide)

lemma isOutsideTags_openMark : ∀ c ∈ "/**".toList, IsOutsideTags c := by
  have hall : "/**".toList.all (fun c => !continuesTagName c && c != '@') = true := by
    decide +kernel
  exact fun c hc => by simpa [IsOutsideTags] using List.all_eq_true.mp hall c hc

lemma isOutsideTags_closeMark : ∀ c ∈ "*/".toList, IsOutsideTags c := fun c hc =>
  isOutsideTags_openMark c ((by decide : "*/".toList ⊆ "/**".toList) hc)

/-- An `@` stands somewhere in the text, and what follows it is as it is called for. -/
def Occurs (follows : Text → Prop) (text : Text) : Prop :=
  ∃ before after, text = before ++ '@' :: after ∧ follows after

/-- Whether a text is as it is called for is decided in front of what is no part of a tag. -/
def IsConfined (follows : Text → Prop) : Prop :=
  ∀ s c t, IsOutsideTags c → (follows (s ++ c :: t) ↔ follows s)

/-- What begins a text without having the character begins it in front of the character. -/
lemma exists_append_of_notMem {p s t rest : Text} {c : Char} (h : s ++ c :: t = p ++ rest)
    (hc : c ∉ p) : ∃ m, s = p ++ m ∧ rest = m ++ c :: t := by
  rcases List.append_eq_append_iff.mp h with ⟨m, hp, hct⟩ | ⟨m, hs, hrest⟩
  · cases m with
    | nil => exact ⟨[], by simpa using hp.symm, by simpa using hct.symm⟩
    | cons d m =>
      obtain ⟨rfl, -⟩ := List.cons.inj hct
      exact absurd (hp ▸ by simp) hc
  · exact ⟨m, hs, hrest⟩

namespace DocTree

/-- The last line in front of the closing mark, or all of it. -/
def closingOf (last : Text) : Text := (before? "*/" (trimEnd last)).getD last

/-- The texts of the content lines of a block. -/
def blockTexts (first : Text) (middle : List Text) (last : Text) : List Text :=
  (if isAllBlank (openingOf first) then [] else [trim (openingOf first)]) ++
    middle.map lineContent ++
    (if isAllBlank (closingOf last) then [] else [lineContent (closingOf last)])

lemma written_readBlock (first : Text) (middle : List Text) (last lineEnd : Text) :
    (readBlock first middle last lineEnd).entries.map Entry.written =
      (blockTexts first middle last).map Content.read := by
  rw [readBlock, written_ofLines, blockTexts, List.map_append, List.map_append, List.map_append,
    List.map_append, List.map_map, List.map_map]
  refine congrArg₂ _ (congrArg₂ _ ?_ rfl) ?_
  · change List.map _ (if isAllBlank (openingOf first) then _ else _) = _
    split <;> rfl
  · change List.map _ (if isAllBlank (closingOf last) then _ else _) = _
    split
    · rfl
    · rw [contentLine_trimEnd]
      rfl

end DocTree

namespace Occurs

variable {follows : Text → Prop} {s t : Text} {c : Char}

lemma not_nil (follows : Text → Prop) : ¬Occurs follows [] := by
  rintro ⟨before, after, h, -⟩
  simp at h

lemma cons_iff : Occurs follows (c :: s) ↔ (c = '@' ∧ follows s) ∨ Occurs follows s := by
  constructor
  · rintro ⟨before, after, h, hfollows⟩
    cases before with
    | nil =>
      obtain ⟨rfl, rfl⟩ := List.cons.inj h
      exact .inl ⟨rfl, hfollows⟩
    | cons d before =>
      obtain ⟨-, rfl⟩ := List.cons.inj h
      exact .inr ⟨before, after, rfl, hfollows⟩
  · rintro (⟨rfl, hfollows⟩ | ⟨before, after, rfl, hfollows⟩)
    · exact ⟨[], s, rfl, hfollows⟩
    · exact ⟨c :: before, after, rfl, hfollows⟩

section Around

variable (hf : IsConfined follows)
include hf

/-- Such a character parts what occurs in front of it from what occurs behind it. -/
lemma append_cons_iff (hc : IsOutsideTags c) :
    Occurs follows (s ++ c :: t) ↔ Occurs follows s ∨ Occurs follows t := by
  induction s with
  | nil => simp [cons_iff, hc.2, not_nil follows]
  | cons d s ih =>
    rw [List.cons_append, cons_iff, cons_iff, ih, hf s c t hc, or_assoc]

lemma append_left_iff (hs : ∀ c ∈ s, IsOutsideTags c) :
    Occurs follows (s ++ t) ↔ Occurs follows t := by
  induction s with
  | nil => rfl
  | cons c s ih =>
    rw [List.forall_mem_cons] at hs
    have := append_cons_iff hf hs.1 (s := []) (t := s ++ t)
    rw [List.nil_append] at this
    rw [List.cons_append, this, ih hs.2, or_iff_right (not_nil follows)]

lemma append_right_iff (ht : ∀ c ∈ t, IsOutsideTags c) :
    Occurs follows (s ++ t) ↔ Occurs follows s := by
  cases t with
  | nil => rw [List.append_nil]
  | cons c t =>
    rw [List.forall_mem_cons] at ht
    have hrest := append_left_iff hf ht.2 (t := [])
    rw [List.append_nil] at hrest
    rw [append_cons_iff hf ht.1, hrest, or_iff_left (not_nil follows)]

/-- What occurs stands within one line. -/
lemma sourceLines_iff (s : Text) :
    Occurs follows s ↔ ∃ l ∈ DocTree.sourceLines s, Occurs follows l := by
  have hfeed : IsOutsideTags '\n' := isOutsideTags_of_isBlank (by decide)
  have hreturn : ∀ l : Text, Occurs follows (DocTree.withoutReturn l) ↔ Occurs follows l := by
    intro l
    rcases DocTree.withoutReturn_cases l with h | h
    · rw [h]
    · have hr : ∀ c ∈ ['\r'], IsOutsideTags c := by
        simpa using isOutsideTags_of_isBlank (c := '\r') (by decide)
      rw [h, append_right_iff hf hr, ← h]
  induction hlen : s.length using Nat.strong_induction_on generalizing s with
  | _ n ih =>
    by_cases hn : '\n' ∈ s
    · obtain ⟨l, t, rfl, hl⟩ := List.eq_append_cons_of_mem hn
      have ht := ih t.length (by simp at hlen; omega) t rfl
      refine (append_cons_iff hf hfeed).trans ((or_congr_right ht).trans ?_)
      rw [DocTree.sourceLines_append_cons hl]
      simp [hreturn]
    · have hline : DocTree.sourceLines s = [DocTree.withoutReturn s] := by
        rw [DocTree.sourceLines, splitOn_of_notMem hn]
        rfl
      simp [hline, hreturn]

lemma trimEnd_iff (s : Text) : Occurs follows (trimEnd s) ↔ Occurs follows s := by
  obtain ⟨b, hb, hs⟩ := exists_trimEnd_append_blank s
  have hout : ∀ c ∈ b, IsOutsideTags c :=
    fun c hc => isOutsideTags_of_isBlank (isAllBlank_iff.mp hb c hc)
  conv_rhs => rw [hs]
  rw [append_right_iff hf hout]

lemma trimStart_iff (s : Text) : Occurs follows (trimStart s) ↔ Occurs follows s := by
  have hout : ∀ c ∈ s.takeWhile Text.isBlank, IsOutsideTags c :=
    fun c hc => isOutsideTags_of_isBlank (List.mem_takeWhile_imp hc)
  conv_rhs => rw [← List.takeWhile_append_dropWhile (p := Text.isBlank) (l := s)]
  rw [append_left_iff hf hout]
  rfl

lemma trim_iff (s : Text) : Occurs follows (trim s) ↔ Occurs follows s := by
  rw [trim, trimEnd_iff hf, trimStart_iff hf]

lemma lineContent_iff (l : Text) :
    Occurs follows (DocTree.lineContent l) ↔ Occurs follows l := by
  have hstar : IsOutsideTags '*' := ⟨by decide +kernel, by decide⟩
  have hafter : ∀ s : Text,
      Occurs follows (DocTree.afterStar s) ↔ Occurs follows s := by
    intro s
    rw [DocTree.afterStar.eq_def]
    split
    · rename_i c r
      split
      · have hout : ∀ d ∈ ['*', c], IsOutsideTags d := by
          simpa using ⟨hstar, isOutsideTags_of_isBlank ‹_›⟩
        exact (append_left_iff hf hout).symm
      · exact (append_left_iff hf (s := ['*']) (by simpa using hstar)).symm
    · exact (append_left_iff hf (s := ['*']) (by simpa using hstar)).symm
    · rfl
  rw [DocTree.lineContent_eq, trimEnd_iff hf, hafter, trimStart_iff hf]

/-- What is left of a text without blanks around it has what the text has, if anything is left. -/
lemma unless_blank_iff {s l : Text} (h : Occurs follows l ↔ Occurs follows s) :
    (∃ l' ∈ if isAllBlank s then [] else [l], Occurs follows l') ↔ Occurs follows s := by
  split
  · rename_i hb
    have hout : ∀ c ∈ s, IsOutsideTags c :=
      fun c hc => isOutsideTags_of_isBlank (isAllBlank_iff.mp hb c hc)
    have := append_left_iff hf hout (t := [])
    rw [List.append_nil] at this
    simp [this, not_nil follows]
  · simpa using h

/-- The opening mark and the closing mark are no part of a tag. -/
lemma marks_iff (s : Text) :
    (Occurs follows (DocTree.openingOf s) ↔ Occurs follows s) ∧
      (Occurs follows (DocTree.closingOf s) ↔ Occurs follows s) := by
  constructor
  · rw [DocTree.openingOf]
    cases h : after? "/**" (trimStart s) with
    | none => rfl
    | some r =>
      rw [← trimStart_iff hf s, ← after?_eq_some_iff.mp h, append_left_iff hf isOutsideTags_openMark]
      rfl
  · rw [DocTree.closingOf]
    cases h : before? "*/" (trimEnd s) with
    | none => rfl
    | some r =>
      rw [← trimEnd_iff hf s, ← before?_eq_some_iff.mp h, append_right_iff hf isOutsideTags_closeMark]
      rfl

end Around
end Occurs

namespace DocTree

/-- A doc comment has lines that are read one by one, and together they have what its text has. -/
theorem exists_lines_occurs {text : Text} (hd : isDocComment (trim text)) :
    ∃ lines : List Text, (read text).entries.map Entry.written = lines.map Content.read ∧
      ∀ follows : Text → Prop, IsConfined follows →
        (Occurs follows text ↔ ∃ l ∈ lines, Occurs follows l) := by
  cases hl : sourceLines (trimEnd text) with
  | nil => exact absurd (List.map_eq_nil_iff.mp hl) (splitOn_ne_nil _ _)
  | cons first rest =>
    rcases List.eq_nil_or_concat' rest with rfl | ⟨middle, last, rfl⟩
    · obtain ⟨m, hm⟩ := exists_between_marks hd
      have hread : read text = readInline (trim text) := by rw [read, if_pos hd, hl]
      refine ⟨if isAllBlank m then [] else [trim m], ?_, fun follows hf => ?_⟩
      · rw [hread, hm, readInline_between_marks, written_ofLines]
        by_cases hb : isAllBlank m
        · simp [hb, trim_eq_nil_iff.mpr hb]
        · simp [hb, mt trim_eq_nil_iff.mp hb]
      · rw [Occurs.unless_blank_iff hf (Occurs.trim_iff hf m),
          ← Occurs.trim_iff hf, hm,
          Occurs.append_right_iff hf isOutsideTags_closeMark,
          Occurs.append_left_iff hf isOutsideTags_openMark]
    · refine ⟨blockTexts first middle last, ?_, fun follows hf => ?_⟩
      · rw [read_of_sourceLines hd hl (by simp), List.dropLast_concat, List.getLast_concat,
          written_readBlock]
      · obtain ⟨hopening, -⟩ := Occurs.marks_iff hf first
        obtain ⟨-, hclosing⟩ := Occurs.marks_iff hf last
        have hfirst := Occurs.unless_blank_iff hf
          (Occurs.trim_iff hf (openingOf first))
        have hlast := Occurs.unless_blank_iff hf
          (Occurs.lineContent_iff hf (closingOf last))
        have hlines : Occurs follows text ↔ Occurs follows first ∨
            (∃ l ∈ middle, Occurs follows l) ∨ Occurs follows last := by
          rw [← Occurs.trimEnd_iff hf, Occurs.sourceLines_iff hf, hl]
          simp [or_and_right, exists_or]
        rw [hlines, ← hopening, ← hfirst, ← hclosing, ← hlast, blockTexts]
        simp [or_and_right, exists_or, Occurs.lineContent_iff hf]

end DocTree

end DocTypes
