import DocTypes.Proofs.Doc.Ink
import DocTypes.Proofs.Doc.Mentions
import DocTypes.Proofs.Doc.Renaming

/-!
Where a line mentions a tag. No type does, so other names in the type of a line leave its mentions as
they are, and so does printing the line and reading it again.
-/
namespace DocTypes
open Text

/-! Text. -/

namespace Occurs

variable {follows : Text → Prop} {s t : Text}

/-- What has no `@` has nothing in front of what follows it. -/
lemma append_iff_of_notMem (h : '@' ∉ s) : Occurs follows (s ++ t) ↔ Occurs follows t := by
  induction s with
  | nil => rfl
  | cons c s ih =>
    rw [List.mem_cons, not_or] at h
    rw [List.cons_append, cons_iff, ih h.2, or_iff_right]
    exact fun hc => h.1 hc.1.symm

/-- White space parts a text. -/
lemma append_iff_of_blank (hf : IsConfined follows) (h : t = [] ∨ ∃ c r, t = c :: r ∧ isBlank c) :
    Occurs follows (s ++ t) ↔ Occurs follows s ∨ Occurs follows t := by
  rcases h with rfl | ⟨c, r, rfl, hc⟩
  · rw [List.append_nil, or_iff_left (not_nil follows)]
  · have hout := isOutsideTags_of_isBlank hc
    have hleft := append_left_iff hf (s := [c]) (t := r) (by simpa using hout)
    rw [append_cons_iff hf hout]
    exact or_congr_right hleft.symm

end Occurs

namespace TypeExpr

/-- The `@` stands in no type. -/
lemma notMem_render_of_isWord {t : TypeExpr Text} (h : ∀ n ∈ t.names, isWord n) :
    '@' ∉ t.render :=
  notMem_render (by decide) fun n hn => notMem_of_isWord (by decide) (by decide) (h n hn)

lemma Derives.notMem {l : Level} {s : Text} {t : TypeExpr Text} (h : Derives l s t) : '@' ∉ s := by
  have hrender := notMem_render_of_isWord fun n hn => isWord_of_isName (h.isWritten.2 n hn)
  have hink : '@' ∉ ink s := by
    rw [← h.ink_render]
    exact fun hmem => hrender (List.mem_of_mem_filter hmem)
  exact fun hmem => hink (List.mem_filter.mpr ⟨hmem, by decide⟩)

end TypeExpr

/-! What was read from a line. -/

variable {ν μ : Type}

/-- The tag is spelled out behind the type, or in the text if there is no type. -/
def TagValue.spellsOut (name : Text) : TagValue ν → Prop
  | .typed v => IsSpelledOut name (v.variableName.getD []) ∨ IsSpelledOut name v.description
  | .plain s => IsSpelledOut name s
  | .malformed s => IsSpelledOut name s

/-- The line begins with the tag, or the tag is spelled out in it. -/
def Content.spellsOut (name : Text) : Content ν → Prop
  | .text s => IsSpelledOut name s
  | .tag t => BeginsTag name t.name.tail ∨ t.value.spellsOut name

lemma Content.spellsOut_map (f : ν → μ) (name : Text) (c : Content ν) :
    (c.map f).spellsOut name ↔ c.spellsOut name := by
  cases c with
  | text s => rfl
  | tag t =>
    obtain ⟨_, value⟩ := t
    cases value <;> rfl

section
variable {name : Text} (hname : ∀ c ∈ name, continuesTagName c)
include hname

lemma TypedValue.spellsOut_read (s : Text) :
    (TypedValue.read s).spellsOut name ↔ IsSpelledOut name s := by
  have hf := isConfined_beginsTag hname
  rw [TypedValue.read]
  split
  · exact Occurs.trim_iff hf s
  · rename_i t rest hread
    obtain ⟨p, hp, hd, -⟩ := TypeExpr.consumes_readPrefix hread
    have htail : IsSpelledOut name s ↔ IsSpelledOut name (trimStart rest) := by
      rw [IsSpelledOut, IsSpelledOut]
      change Occurs (BeginsTag name) s ↔ Occurs (BeginsTag name) (trimStart rest)
      rw [← Occurs.trim_iff hf s, hp, Occurs.append_iff_of_notMem hd.notMem, Occurs.trimStart_iff hf]
    rw [htail]
    dsimp only
    split
    · -- The variable ends in front of white space.
      have hblank : (trimStart rest).dropWhile (!isBlank ·) = [] ∨
          ∃ c r, (trimStart rest).dropWhile (!isBlank ·) = c :: r ∧ isBlank c := by
        cases hdrop : (trimStart rest).dropWhile (!isBlank ·) with
        | nil => exact .inl rfl
        | cons c r =>
          have := List.head?_dropWhile_not (!isBlank ·) (trimStart rest)
          rw [hdrop] at this
          exact .inr ⟨c, r, rfl, by simpa using this⟩
      have hsplit := Occurs.append_iff_of_blank (s := (trimStart rest).takeWhile (!isBlank ·)) hf hblank
      rw [List.takeWhile_append_dropWhile] at hsplit
      exact (or_congr_right (Occurs.trim_iff hf _)).trans hsplit.symm
    · exact or_iff_right (IsSpelledOut.not_nil name)

/-- A tag name in front of text that it does not go on with. -/
lemma spellsOut_tagName {n given rest value : Text} (h : Content.readTagName given = some (n, value))
    (hends : endsTagName rest) :
    IsSpelledOut name (n ++ rest) ↔ BeginsTag name n.tail ∨ IsSpelledOut name rest := by
  obtain ⟨mark, c, r, hmark, hc, -, rfl, hr⟩ := Content.readTagName_cases h
  have hbody : ∃ body, mark ++ c :: r = '@' :: body ∧ '@' ∉ body := by
    have hat : continuesTagName '@' = false := by decide +kernel
    have hrest : '@' ∉ c :: r := by
      intro hmem
      have hall : ∀ d ∈ c :: r, continuesTagName d = true :=
        List.forall_mem_cons.mpr ⟨continuesTagName_of_startsTag hc, hr⟩
      rw [hall '@' hmem] at hat
      cases hat
    rcases hmark with rfl | rfl
    · exact ⟨_, rfl, hrest⟩
    · exact ⟨'\\' :: c :: r, rfl, by simpa using hrest⟩
  obtain ⟨body, hbody, hnot⟩ := hbody
  have hbegins : BeginsTag name (body ++ rest) ↔ BeginsTag name body := by
    cases rest with
    | nil => rw [List.append_nil]
    | cons d rest => exact beginsTag_append_cons_iff hname (by simpa [endsTagName] using hends) body rest
  rw [hbody, List.cons_append, IsSpelledOut.cons_iff, hbegins, List.tail_cons,
    and_iff_right rfl]
  exact or_congr_right (Occurs.append_iff_of_notMem hnot)

/-- Reading a line keeps what it mentions. -/
theorem Content.spellsOut_read (l : Text) :
    (Content.read l).spellsOut name ↔ IsSpelledOut name l := by
  rw [Content.read]
  split
  · rfl
  · rename_i n rest hread
    have hvalue : (if Tag.bearsType n then TypedValue.read rest else
        TagValue.plain (trim rest)).spellsOut name ↔ IsSpelledOut name rest := by
      split
      · exact TypedValue.spellsOut_read hname rest
      · exact Occurs.trim_iff (isConfined_beginsTag hname) rest
    rw [Content.append_of_readTagName hread,
      spellsOut_tagName hname hread (Content.endsTagName_of_readTagName hread)]
    exact or_congr_right hvalue

omit hname in
/-- Behind its name a tag is printed with its value, or with white space and its value. -/
lemma Tag.exists_render (t : Tag Text) : ∃ gap, t.render = t.name ++ (gap ++ t.value.render) ∧
    endsTagName (gap ++ t.value.render) ∧ '@' ∉ gap := by
  rw [render]
  split
  · rename_i h
    exact ⟨[], by simp [h], by rw [h]; rfl, by simp⟩
  · rename_i r h
    have hopen : continuesTagName '(' = false := by decide +kernel
    exact ⟨[], by rw [h]; rfl, by rw [h]; simp [endsTagName, hopen], by simp⟩
  · rename_i c r _ h
    have hblank : continuesTagName ' ' = false := by decide +kernel
    exact ⟨[' '], by rw [h]; rfl, by rw [h]; simp [endsTagName, hblank], by decide⟩

/-- A printed tag mentions what it mentioned, whatever words stand in its type. -/
lemma Tag.spellsOut_render {n given value : Text} {v : TypedValue Text}
    (h : Content.readTagName given = some (n, value)) (hwords : ∀ w ∈ v.type.names, TypeExpr.isWord w) :
    IsSpelledOut name (Tag.render ⟨n, .typed v⟩) ↔
      (Content.tag ⟨n, .typed v⟩).spellsOut name := by
  have hf := isConfined_beginsTag hname
  obtain ⟨gap, hrender, hends, hgap⟩ := Tag.exists_render ⟨n, .typed v⟩
  rw [hrender, spellsOut_tagName hname h hends]
  refine or_congr_right ?_
  have hpart : ∀ s t : Text, Occurs (BeginsTag name) (s ++ ' ' :: t) ↔
      Occurs (BeginsTag name) s ∨ Occurs (BeginsTag name) t := fun s t =>
    Occurs.append_cons_iff hf (isOutsideTags_of_isBlank (by decide))
  have htype : ¬Occurs (BeginsTag name) v.type.render := by
    have hsplit : Occurs (BeginsTag name) (v.type.render ++ []) ↔ Occurs (BeginsTag name) [] :=
      Occurs.append_iff_of_notMem (TypeExpr.notMem_render_of_isWord hwords)
    rw [List.append_nil] at hsplit
    exact hsplit.not.mpr (Occurs.not_nil _)
  refine (Occurs.append_iff_of_notMem hgap).trans ?_
  change Occurs (BeginsTag name) v.render ↔
    Occurs (BeginsTag name) (v.variableName.getD []) ∨ Occurs (BeginsTag name) v.description
  obtain ⟨type, variableName, description⟩ := v
  have hnone : ¬Occurs (BeginsTag name) [] := Occurs.not_nil _
  cases variableName <;> cases description <;> simp [TypedValue.render, hpart, htype, hnone]

/-- A line with other names in its type mentions what it mentioned, printed and read again. -/
theorem Renaming.spellsOut_reread {r : Renaming} (h : r.IsRewording) :
    r.after.reread.spellsOut name ↔ r.content.spellsOut name := by
  have hwritten : r.after.written.spellsOut name ↔ r.content.spellsOut name := by
    rw [written_after, Content.spellsOut_map]
  cases hu : r.after.isUntouched with
  | true => rwa [Entry.reread, if_pos hu]
  | false =>
    obtain ⟨n, v, hcontent⟩ := exists_typed h.origin hu
    obtain ⟨l, -, hread⟩ := h.line
    have hafter : r.after.written = .tag ⟨n, .typed (v.map (·.2.written))⟩ := by
      rw [written_after, hcontent]
      rfl
    rw [written_before, hcontent] at hread
    obtain ⟨rest, hn, -⟩ := Content.exists_of_read_typed hread.symm
    have hwords : ∀ w ∈ (v.map (·.2.written)).type.names, TypeExpr.isWord w := by
      have := h.words
      rw [hcontent] at this
      rw [TypedValue.map, TypeExpr.names_map, List.forall_mem_map]
      exact this
    rw [Entry.reread, hu, if_neg Bool.false_ne_true, Content.spellsOut_read hname, ← hwritten, hafter]
    exact Tag.spellsOut_render hname hn hwords

end
end DocTypes
