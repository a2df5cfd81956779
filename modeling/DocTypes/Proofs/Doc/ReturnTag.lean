import DocTypes.Proofs.Doc.FrontLine
import DocTypes.Proofs.Doc.Ink
import DocTypes.Proofs.Doc.Lossless
import DocTypes.Proofs.Text.Case
import DocTypes.Proofs.TypeExpr.Acceptance
import DocTypes.Proofs.TypeExpr.Words

/-!
Setting the type of `@return`. The text of the type is cut at one mark and a backslash put in front of
the parts, so the names become absolute exactly where each part begins with the only name that is not
absolute yet.
-/
namespace DocTypes
open Text

namespace Name
open TypeExpr

/-- Nothing becomes part of a word by its case. -/
lemma inWord_of_toLower {c : Char} (h : inWord c.toLower) : inWord c := by
  by_cases hc : c.toLower = c
  · rwa [hc] at h
  · have hupper := isUpper_of_toLower_ne hc
    have hascii : c.toNat < 0x80 :=
      lt_of_le_of_lt (b := 90) (of_decide_eq_true hupper).2 (by decide)
    have halpha : c.isAlpha := (Bool.or_eq_true _ _).mpr (.inl hupper)
    simp [inWord, continuesName, isAlphanumeric, isAlphabetic, hascii, halpha]

/-- A reserved type is one of the words, and marks around it. -/
lemma exists_of_isReserved {part : Text} (h : isReserved part) : ∃ a w z, part = a ++ (w ++ z) ∧
    (∀ c ∈ a, inWord c = false) ∧ (∀ c ∈ z, inWord c = false) ∧ w ≠ [] ∧ (∀ c ∈ w, inWord c) ∧
      isReserved w := by
  obtain ⟨k, hk⟩ := exists_withoutBrackets_append (trim part)
  obtain ⟨a, b, ha, hb, hpart⟩ := exists_blanks_trim part
  have hmem : lower (withoutBrackets (trim part)) ∈ reservedWords := List.contains_iff_mem.mp h
  have hwords : reservedWords.all fun w => !w.isEmpty && w.all inWord := by decide
  obtain ⟨hne, hall⟩ : lower (withoutBrackets (trim part)) ≠ [] ∧
      ∀ c ∈ lower (withoutBrackets (trim part)), inWord c := by
    simpa using List.all_eq_true.mp hwords _ hmem
  have hword : ∀ c ∈ withoutBrackets (trim part), inWord c := fun c hc =>
    inWord_of_toLower (hall _ (List.mem_map_of_mem hc))
  have hnil : withoutBrackets (trim part) ≠ [] := fun hnil => hne (by rw [hnil]; rfl)
  refine ⟨a, withoutBrackets (trim part), brackets k ++ b, ?_, ?_, ?_, hnil, hword, ?_⟩
  · rw [← List.append_assoc (withoutBrackets _), ← hk, ← List.append_assoc]
    exact hpart
  · exact inWord_of_isAllBlank ha
  · rw [List.forall_mem_append]
    refine ⟨fun c hc => ?_, inWord_of_isAllBlank hb⟩
    rcases mem_brackets hc with rfl | rfl <;> decide
  · have hnone : ']' ∉ withoutBrackets (trim part) := fun hc =>
      absurd (hword _ hc) (by decide)
    have hsame := withoutBrackets_append hnone 0
    rw [brackets, List.append_nil] at hsame
    have hsolid : Solid (withoutBrackets (trim part)) := solid_of_inWord hword hnil
    rwa [isReserved, hsolid.trim_eq, hsame]

end Name

namespace TypeName
open TypeExpr Name

/-- The part becomes absolute by a backslash in front: it is a reserved type, or it begins with a name
that is not reserved, and every other name in it is reserved or absolute already. -/
def isRootable (part : Text) : Bool :=
  isReserved part ||
    !(part.takeWhile inWord).isEmpty && !isReserved (part.takeWhile inWord) &&
      (words (part.dropWhile inWord)).all fun w => isReserved w || startsWith "\\" w

lemma isName_absolutePart {n : Text} (h : isName n) : isName (absolutePart n) := by
  rw [absolutePart]
  split
  · exact h
  · rename_i hr
    rw [isReserved_of_isWord (isWord_of_isName h)] at hr
    exact isName_rooted h (Bool.eq_false_iff.mpr hr)

/-- A name that is made absolute is no `$this`. -/
lemma isRenaming_absolutePart {n : Text} (h : isName n) : IsRenaming absolutePart n := by
  refine ⟨isName_absolutePart h, fun hj => ?_⟩
  rw [absolutePart]
  split
  · exact hj
  · rfl

/-- An absolute name is left alone. -/
lemma absolutePart_of_startsWith {n : Text} (h : isName n) (hs : startsWith "\\" n) :
    absolutePart n = n := by
  rcases isName_cases h with rfl | ⟨s, rfl, hspelled⟩ | hspelled
  · exact absurd hs (by decide)
  · rw [absolutePart, isReserved_rooted, if_neg (by decide), rooted_backslash, rooted,
      unrooted_of_isSpelled hspelled]
  · obtain ⟨r, rfl⟩ := startsWith_iff.mp hs
    exact absurd rfl (startsName_ne (isSpelled_cons.mp hspelled).1).2.1

/-- A name in a part that is not in front is to be left alone. -/
lemma absolutePart_eq_self_iff {n : Text} (h : isName n) :
    absolutePart n = n ↔ isReserved n ∨ startsWith "\\" n := by
  constructor
  · intro hn
    rw [absolutePart] at hn
    split at hn
    · exact .inl ‹_›
    · refine .inr ?_
      rw [← hn]
      rfl
  · rintro (hr | hs)
    · exact if_pos hr
    · exact absolutePart_of_startsWith h hs

variable {part : Text}

/-- The backslash goes to the first word of the part. -/
lemma rooted_of_takeWhile (h : isName (part.takeWhile inWord)) :
    rooted part = rooted (part.takeWhile inWord) ++ part.dropWhile inWord := by
  have hunrooted := unrooted_append h (part.dropWhile inWord)
  rw [List.takeWhile_append_dropWhile] at hunrooted
  rw [rooted, hunrooted, rooted, List.cons_append]

/-- What becomes absolute by a backslash in front is what has its names absolute. -/
lemma absolutePart_of_isRootable (h : isRootable part) (hnames : ∀ w ∈ words part, isName w) :
    absolutePart part = mapWords absolutePart part := by
  by_cases hreserved : isReserved part
  · obtain ⟨a, w, z, hpart, ha, hz, hne, hw, hr⟩ := exists_of_isReserved hreserved
    rw [absolutePart, if_pos hreserved, hpart, mapWords_append_of_marks ha, mapWords_append_marks hz,
      mapWords_of_forall hne hw, absolutePart, if_pos hr]
  · simp only [isRootable, hreserved, Bool.false_or, Bool.and_eq_true, Bool.not_eq_true',
      List.isEmpty_eq_false_iff, List.all_eq_true, Bool.or_eq_true] at h
    obtain ⟨⟨hne, hfirst⟩, hrest⟩ := h
    obtain ⟨hwords, hmap⟩ := words_of_takeWhile (f := absolutePart) hne
    rw [hwords, List.forall_mem_cons] at hnames
    rw [hmap, mapWords_eq_self fun w hw =>
      (absolutePart_eq_self_iff (hnames.2 w hw)).mpr (hrest w hw)]
    rw [absolutePart, if_neg hreserved, absolutePart, hfirst, if_neg (by decide),
      rooted_of_takeWhile hnames.1]

lemma inWord_rooted {w : Text} (h : ∀ c ∈ w, inWord c) : ∀ c ∈ rooted w, inWord c := by
  rw [rooted, List.forall_mem_cons]
  exact ⟨by decide, fun c hc => h c ((List.dropWhile_suffix _).subset hc)⟩

/-- In front of a mark the backslash is a word of its own. -/
lemma words_rooted_cons {c : Char} (hc : inWord c = false) (r : Text) :
    words (rooted (c :: r)) = ['\\'] :: words (c :: r) := by
  have hb : c ≠ '\\' := by
    rintro rfl
    exact absurd hc (by decide)
  have hroot : rooted (c :: r) = ['\\'] ++ c :: r := by
    rw [rooted, unrooted, List.dropWhile_cons_of_neg (by simpa using hb), List.singleton_append]
  have hmark : ∀ c ∈ ['\\'], inWord c := List.all_eq_true.mp (by decide)
  rw [hroot, words_append_of_forall (by decide) hmark (by simpa using hc)]

/-- In front of a name it belongs to the name. -/
lemma words_rooted (h : isName (part.takeWhile inWord)) : words (rooted part) =
    rooted (part.takeWhile inWord) :: words (part.dropWhile inWord) := by
  rw [rooted_of_takeWhile h]
  exact words_append_of_forall (List.cons_ne_nil _ _)
    (inWord_rooted fun c hc => List.mem_takeWhile_imp hc) (head?_dropWhile_inWord part)

/-- A name that a backslash makes absolute is not reserved. -/
lemma isReserved_of_rooted_eq {w : Text} (h : rooted w = absolutePart w) : isReserved w = false := by
  rw [Bool.eq_false_iff]
  intro hr
  rw [absolutePart, if_pos hr] at h
  rw [← h, rooted, isReserved_rooted] at hr
  cases hr

/-- The words of an absolute part, in front of others, are its words made absolute only where the
backslash in front makes the names absolute. -/
lemma isRootable_of_words (hnames : ∀ w ∈ words part, isName w) (hne : words part ≠ [])
    {us vs : List Text}
    (h : words (absolutePart part) ++ us = (words part).map absolutePart ++ vs) :
    isRootable part ∧ us = vs := by
  by_cases hreserved : isReserved part
  · rw [absolutePart, if_pos hreserved] at h
    exact ⟨by rw [isRootable, hreserved, Bool.true_or],
      (List.append_inj h (List.length_map _).symm).2⟩
  rw [absolutePart, if_neg hreserved] at h
  obtain rfl | ⟨c, r, hc, rfl⟩ | hfirst := words_cases part
  · exact absurd rfl hne
  · -- The backslash stands alone, and this is no name.
    obtain ⟨w, ws, hws⟩ := List.exists_cons_of_ne_nil hne
    rw [words_rooted_cons hc, hws, List.map_cons, List.cons_append] at h
    have hname := isName_absolutePart (hnames w (hws ▸ List.mem_cons_self))
    rw [← (List.cons.inj h).1] at hname
    exact absurd hname (by decide)
  · obtain ⟨hwords, -⟩ := words_of_takeWhile (f := absolutePart) hfirst
    rw [hwords, List.forall_mem_cons] at hnames
    rw [words_rooted hnames.1, hwords, List.map_cons, List.cons_append, List.cons_append,
      List.cons.injEq] at h
    obtain ⟨hrooted, h⟩ := h
    obtain ⟨hsame, hus⟩ := List.append_inj h (List.length_map _).symm
    have hothers : ∀ w ∈ words (part.dropWhile inWord), absolutePart w = w :=
      List.map_inj_left.mp (hsame.symm.trans (List.map_id _).symm)
    refine ⟨?_, hus⟩
    simp only [isRootable, hreserved, isReserved_of_rooted_eq hrooted, Bool.false_or,
      Bool.and_eq_true, Bool.not_eq_true', List.isEmpty_eq_false_iff, List.all_eq_true,
      Bool.or_eq_true, Bool.not_false, and_true]
    exact ⟨hfirst, fun w hw => (absolutePart_eq_self_iff (hnames.2 w hw)).mp (hothers w hw)⟩

/-- Part after part. -/
lemma forall_isRootable {parts : List Text} (hnames : ∀ p ∈ parts, ∀ w ∈ words p, isName w)
    (hne : ∀ p ∈ parts, words p ≠ []) {vs : List Text}
    (h : (parts.map absolutePart).flatMap words = (parts.flatMap words).map absolutePart ++ vs) :
    ∀ p ∈ parts, isRootable p := by
  induction parts with
  | nil => simp
  | cons p parts ih =>
    rw [List.forall_mem_cons] at hnames hne
    rw [List.map_cons, List.flatMap_cons, List.flatMap_cons, List.map_append,
      List.append_assoc] at h
    obtain ⟨hp, hrest⟩ := isRootable_of_words hnames.1 hne.1 h
    exact List.forall_mem_cons.mpr ⟨hp, ih hnames.2 hne.2 hrest⟩

end TypeName

/-- The type with exactly one backslash in front of its names, and the reserved ones as they are. -/
def TypeExpr.absolute (t : TypeExpr Text) : TypeExpr Text :=
  t.map fun n => if lower n ∈ Name.reservedWords then n else Name.rooted n

namespace TypeName
open TypeExpr Name

lemma partMark_cases (s : Text) : partMark s = '|' ∨ partMark s = '&' := by
  unfold partMark
  split
  · exact .inr rfl
  · exact .inl rfl

lemma inWord_partMark (s : Text) : inWord (partMark s) = false := by
  rcases partMark_cases s with h | h <;> rw [h] <;> decide

lemma isBlank_partMark (s : Text) : isBlank (partMark s) = false := by
  rcases partMark_cases s with h | h <;> rw [h] <;> decide

lemma inTag_plain (s : Text) :
    (plain s).inTag = join [partMark s] ((splitOn (partMark s) s).map absolutePart) := rfl

/-- The words of the parts are those of the text. -/
lemma flatMap_words (s : Text) : (splitOn (partMark s) s).flatMap words = words s := by
  rw [← words_join (inWord_partMark s), join_splitOn]

section
variable {type : Text} {t : TypeExpr Text} (ht : TypeExpr.read type = .ok t)
include ht

lemma words_of_read : words type = t.names := by
  rw [← words_trim, (derives_of_read ht).words]

lemma absolute_of_read : t.absolute = t.map absolutePart :=
  map_congr fun n hn => by
    have hreserved := isReserved_of_isWord (isWord_of_isName ((isWritten_of_read ht).2 n hn))
    simp [absolutePart, hreserved]

lemma words_ne_nil_of_mem_part : ∀ p ∈ splitOn (partMark type) type, words p ≠ [] := by
  obtain ⟨a, b, ha, hb, htype⟩ := exists_blanks_trim type
  have hblank := isBlank_partMark type
  have hwords := ((derives_of_read ht).hasWords (partMark_cases type)).append_left
    (notMem_of_isAllBlank hblank ha) |>.append_right (notMem_of_isAllBlank hblank hb)
  rw [← htype] at hwords
  intro p hp
  obtain ⟨c, hc, hw⟩ := hwords p hp
  exact words_ne_nil hc hw

lemma isName_of_mem_part : ∀ p ∈ splitOn (partMark type) type, ∀ w ∈ words p, isName w := by
  intro p hp w hw
  have hmem : w ∈ words type := flatMap_words type ▸ List.mem_flatMap.mpr ⟨p, hp, hw⟩
  exact (isWritten_of_read ht).2 w (words_of_read ht ▸ hmem)

/-- Where a backslash in front makes each part absolute, the text is written with its names absolute. -/
lemma inTag_of_isRootable (h : ∀ p ∈ splitOn (partMark type) type, isRootable p) :
    (plain type).inTag = mapWords absolutePart type := by
  have hparts : (splitOn (partMark type) type).map absolutePart =
      (splitOn (partMark type) type).map (mapWords absolutePart) :=
    List.map_congr_left fun p hp =>
      absolutePart_of_isRootable (h p hp) (isName_of_mem_part ht p hp)
  rw [inTag_plain, hparts, ← mapWords_join (inWord_partMark type), join_splitOn]

/-- It is read as the type with its names absolute. -/
theorem read_inTag_of_isRootable (h : ∀ p ∈ splitOn (partMark type) type, isRootable p) :
    TypeExpr.read (plain type).inTag = .ok t.absolute := by
  obtain ⟨a, b, ha, hb, htype⟩ := exists_blanks_trim type
  have hnames := (isWritten_of_read ht).2
  have habsolute : Derives .type (mapWords absolutePart (trim type)) t.absolute :=
    absolute_of_read ht ▸
      (derives_of_read ht).mapWords fun n hn => isRenaming_absolutePart (hnames n hn)
  have htrim : trim (mapWords absolutePart type) = mapWords absolutePart (trim type) := by
    rw [htype, mapWords_append_marks (inWord_of_isAllBlank hb),
      mapWords_append_of_marks (inWord_of_isAllBlank ha), trim_between_blanks ha hb, ← htype]
    exact (habsolute.solid (by simp)).trim_eq
  rw [inTag_of_isRootable ht h, (readPrefix_and_read_iff _ _).2, htrim]
  exact habsolute

/-- Where what is written has the names of the type in front, made absolute, a backslash in front made
each part absolute. -/
theorem isRootable_of_words_inTag {vs : List Text}
    (h : words (plain type).inTag = t.absolute.names ++ vs) :
    ∀ p ∈ splitOn (partMark type) type, isRootable p := by
  rw [inTag_plain, words_join (inWord_partMark type), absolute_of_read ht, names_map,
    ← words_of_read ht, ← flatMap_words] at h
  exact forall_isRootable (isName_of_mem_part ht) (words_ne_nil_of_mem_part ht) h

end

end TypeName

lemma TagValue.typed?_eq_some {ν : Type} {value : TagValue ν} {v : TypedValue ν} :
    value.typed? = some v ↔ value = .typed v := by
  cases value <;> simp [typed?]

/-- A type is read from the words in the front of the text. -/
lemma TypedValue.exists_words_of_read {s : Text} {u : TypeExpr Text}
    (h : (read s).typed?.map (·.type) = some u) : ∃ vs, TypeExpr.words s = u.names ++ vs := by
  obtain ⟨v, rest, hread, hfront⟩ | hread := read_cases s
  · rw [hread] at h
    obtain rfl : v.type = u := Option.some.inj h
    obtain ⟨p, hp, hd, hrest⟩ := TypeExpr.consumes_readPrefix hfront
    rw [← TypeExpr.words_trim, hp, ← hd.words]
    rcases hrest with rfl | ⟨c, r, rfl, hc⟩
    · exact ⟨[], by rw [List.append_nil, List.append_nil]⟩
    · exact ⟨TypeExpr.words r, TypeExpr.words_append_cons (TypeExpr.inWord_of_isBlank hc) p r⟩
  · rw [hread] at h
    cases h

/-- Nothing stands in the text of a type but marks, white space and names. -/
lemma TypeExpr.notMem_of_read {c : Char} (hink : isInk c) (hcont : continuesName c = false)
    (hthis : c ∉ ("$this" : Text)) (hmarks : c ∉ syntaxMarks) {type : Text} {t : TypeExpr Text}
    (ht : read type = .ok t) : c ∉ type := by
  intro hc
  have hmem : c ∈ ink type := List.mem_filter.mpr ⟨hc, hink⟩
  rw [← ink_trim, ← (derives_of_read ht).ink_render] at hmem
  exact DocSlot.notMem_render_of_read hcont hthis hmarks ht (List.mem_filter.mp hmem).1

namespace DocSlot
open TypeExpr DocTypes.TypeName

variable {s : DocSlot} {name type : Text} {t : TypeExpr Text}

/-- A type that can be read is written as it is printed, in one line. -/
lemma render_value_typedTag_of_read (name : Text) (ht : TypeExpr.read type = .ok t) :
    (typedTag name type).value.render = t.render ∧ splitOn '\n' t.render = [t.render] := by
  obtain ⟨u, hvalue, hu | ⟨⟨e, he⟩, -⟩⟩ := typedTag_value name type
  · obtain rfl : t = u := Except.ok.inj (ht.symm.trans hu)
    obtain ⟨hcont, hthis, hmarks⟩ := notMem_of_isBreak (c := '\n') (.inl rfl)
    rw [hvalue, render_ofType]
    exact ⟨rfl, splitOn_of_notMem (notMem_render_of_read hcont hthis hmarks ht)⟩
  · rw [he] at ht
    cases ht

/-- The type that is read in the first line of a tag has the words in the front of the text that was
to be written. -/
lemma exists_words_of_front {front : Text} {rest : List Text} {u : TypeExpr Text}
    (hfront : splitOn '\n' (typedTag name type).value.render = front :: rest)
    (h : (TypedValue.read front).typed?.map (·.type) = some u) : ∃ vs, words type = u.names ++ vs := by
  obtain ⟨t, hvalue, ht | ⟨-, rfl⟩⟩ := typedTag_value name type
  · obtain ⟨hproper, hnames⟩ := isWritten_of_read ht
    have hread := TypedValue.typed?_read_render (v := .ofType t) hproper fun n hn =>
      isWord_of_isName (hnames n hn)
    obtain ⟨hrender, hline⟩ := render_value_typedTag_of_read name ht
    rw [hrender, hline] at hfront
    obtain ⟨rfl, -⟩ := List.cons.inj hfront
    rw [← render_ofType] at h
    have hu := hread.symm.trans h
    split at hu
    · refine ⟨[], ?_⟩
      rw [words_of_read ht, List.append_nil, ← Option.some.inj hu]
      exact (names_regroup t).symm
    · cases hu
  · -- The text stands in the tag as it is.
    rw [hvalue, render_ofType, render] at hfront
    obtain ⟨vs, hvs⟩ := TypedValue.exists_words_of_read h
    refine ⟨vs ++ rest.flatMap words, ?_⟩
    rw [← join_splitOn '\n' type, words_join (by decide), hfront, List.flatMap_cons, hvs,
      List.append_assoc]

/-- Without a tag there is no type of `@return`. -/
lemma returnInfo?_eq_none (h : ∀ u : Tag TypeRef, .tag u ∈ s.contents → u.name ≠ "@return".toList) :
    s.returnInfo? = none := by
  unfold contents at h
  rw [returnInfo?]
  cases hc : s.comment? with
  | none => rfl
  | some c =>
    rw [hc] at h
    have hnone : c.tree.tags.filter (·.name == "@return".toList) = [] := by
      rw [List.filter_eq_nil_iff]
      intro u hu
      obtain ⟨e, he, htag⟩ := List.mem_filterMap.mp hu
      have hcontent : e.content = .tag u := by
        cases hec : e.content with
        | text s => simp [hec, Content.tag?] at htag
        | tag w => simpa [hec, Content.tag?] using htag
      simpa using h u (hcontent ▸ List.mem_map_of_mem he)
    rw [Option.bind_some, DocComment.returnInfo?, DocComment.typedValues, hnone]
    rfl

lemma addReturn_eq_setTag (h : ∀ u : Tag TypeRef, .tag u ∈ s.contents → u.name ≠ "@return".toList)
    (type : Text) :
    s.addReturn type = s.setTag (typedTag "@return" (TypeName.plain type).inTag) := by
  rw [addReturn, returnInfo?_eq_none h]
  exact if_neg nofun

/-- A tag that is one line is there after it was set. -/
lemma mem_contents_setTag (hs : s.IsTidy) {tag : Tag Text} (h : tag.IsSteady) :
    (Content.read (trimEnd tag.render)).map (TypeRef.resolveIn s.scope ∘ .ofWritten) ∈
      (s.setTag tag).1.contents := by
  obtain ⟨d, source, hf, hk, hset⟩ := exists_setTag hs tag
  obtain ⟨es, e, fs, found⟩ :=
    DocTree.exists_isFound hf hk h (TypeRef.written_resolveIn s.scope) source
  rw [hset, contents_eq, tree_of_some rfl, ← found.content]
  refine List.mem_map_of_mem (f := fun e : Entry => e.content) ?_
  exact found.entries ▸ List.mem_append_right es List.mem_cons_self

/-- No tag is written inside the one that is set. -/
lemma notMem_value_of_read (name : Text) (ht : TypeExpr.read type = .ok t) :
    '@' ∉ (typedTag name type).value.render ∧
      '@' ∉ (typedTag name (TypeName.plain type).inTag).value.render := by
  have hcont : continuesName '@' = false := by decide
  have hthis : '@' ∉ ("$this" : Text) := by decide
  have hmarks : '@' ∉ syntaxMarks := by decide
  have htype : '@' ∉ type := notMem_of_read (by decide) hcont hthis hmarks ht
  exact ⟨notMem_value_typedTag hcont hthis hmarks name htype,
    notMem_value_typedTag hcont hthis hmarks name
      (TypeName.notMem_inTag (by decide) (by decide) (by decide) htype)⟩

/-- A tag that was set for a type bears it exactly if the type comes back from its text. -/
lemma exists_typed_setTag_iff (hs : s.IsTidy) (hname : Tag.IsTypeTag name)
    (ht : TypeExpr.read type = .ok t) :
    (∃ v, .tag ⟨name, .typed v⟩ ∈ (s.setTag (typedTag name type)).1.contents ∧
      v.type.map TypeRef.written = t) ↔ t.isReadable ∧ t.isGrouped := by
  have hreads : Content.readTagName (typedTag name type).name =
      some ((typedTag name type).name, []) := (name_typedTag hname type).symm ▸ hname.reads
  have hbears : Tag.bearsType (typedTag name type).name :=
    (name_typedTag hname type).symm ▸ hname.bears
  have hcomes := (read_render_eq_self_iff ht).2 (.ofType t) rfl
  rw [show (TypedValue.ofType t).render = t.render from render_ofType t] at hcomes
  obtain ⟨hrender, hline⟩ := render_value_typedTag_of_read name ht
  rw [← hcomes]
  constructor
  · rintro ⟨v, hv, hvt⟩
    have hv : .tag ⟨(typedTag name type).name, .typed v⟩ ∈
        (s.setTag (typedTag name type)).1.contents := (name_typedTag hname type).symm ▸ hv
    obtain ⟨front, rest, hfront, hread⟩ :=
      exists_front_of_typed hs hreads hbears (notMem_value_of_read name ht).1 (v := v) hv
    rw [hrender, hline] at hfront
    obtain ⟨rfl, -⟩ := List.cons.inj hfront
    rw [hread, hvt]
  · intro htyped
    obtain ⟨v, hv, rfl⟩ := Option.map_eq_some_iff.mp htyped
    have hmem := mem_contents_setTag hs (isSteady_typedTag hname (.inl ⟨_, ht⟩))
    rw [Tag.read_render hreads hbears, hrender, TagValue.typed?_eq_some.mp hv,
      name_typedTag hname] at hmem
    exact ⟨_, hmem, map_written_lookedUp s.scope v.type⟩

/-- Setting the type of `@return` where there is none leaves a tag with the type, its names absolute,
exactly if a backslash in front makes each part absolute, and the type comes back from its text. -/
theorem addReturn_absolute_iff (hs : s.IsTidy)
    (hnone : ∀ u : Tag TypeRef, .tag u ∈ s.contents → u.name ≠ "@return".toList)
    (ht : TypeExpr.read type = .ok t) :
    (∃ v, .tag ⟨"@return", .typed v⟩ ∈ (s.addReturn type).1.contents ∧
      v.type.map TypeRef.written = t.absolute) ↔
      (∀ p ∈ splitOn (partMark type) type, isRootable p) ∧
        t.absolute.isReadable ∧ t.absolute.isGrouped := by
  rw [addReturn_eq_setTag hnone]
  have hrootable : (∀ p ∈ splitOn (partMark type) type, isRootable p) → (_ ↔ _) := fun h =>
    exists_typed_setTag_iff hs Tag.isTypeTag_return (read_inTag_of_isRootable ht h)
  constructor
  · rintro ⟨v, hv, hvt⟩
    have hall : ∀ p ∈ splitOn (partMark type) type, isRootable p := by
      obtain ⟨front, rest, hfront, hread⟩ := exists_front_of_typed hs Tag.isTypeTag_return.reads
        Tag.isTypeTag_return.bears (notMem_value_of_read "@return" ht).2 hv
      obtain ⟨vs, hwords⟩ := exists_words_of_front hfront hread
      exact isRootable_of_words_inTag ht (hvt ▸ hwords)
    exact ⟨hall, (hrootable hall).mp ⟨v, hv, hvt⟩⟩
  · rintro ⟨hall, hcomes⟩
    exact (hrootable hall).mpr hcomes

/-- A reserved name, an array, a class that is absolute already, and arguments of which this is true. -/
theorem addReturn_absolute_iff_union :
    let s : DocSlot := ⟨some "/** Note. */", none⟩
    let type : Text := "int|Foo[]|\\A|Set<\\A, int>"
    (s.addReturn type).1.text =
        some "/**\n * Note.\n * @return int|\\Foo[]|\\A|\\Set<\\A, int>\n */".toList ∧
      ∃ v, .tag ⟨"@return", .typed v⟩ ∈ (s.addReturn type).1.contents ∧
        v.type.map TypeRef.written = .union [.name "int", .array (.name "\\Foo"), .name "\\A",
          .generic "\\Set" [.name "\\A", .name "int"]] := by
  intro s type
  have htidy : s.IsTidy := by decide +kernel
  have hnone : ∀ u : Tag TypeRef, .tag u ∈ s.contents → u.name ≠ "@return".toList := by
    intro u hu
    have hcontents : s.contents = [.text "Note."] := by decide +kernel
    rw [hcontents, List.mem_singleton] at hu
    cases hu
  have hread : TypeExpr.read type = .ok (.union [.name "int", .array (.name "Foo"), .name "\\A",
      .generic "Set" [.name "\\A", .name "int"]]) := by decide +kernel
  exact ⟨by decide +kernel, (addReturn_absolute_iff htidy hnone hread).mpr (by decide +kernel)⟩

/-- The backslash stands in front of the `?`, where no type can be read any more. -/
theorem addReturn_nullable :
    let s : DocSlot := ⟨none, none⟩
    let t : TypeExpr Text := .nullable (.name "Foo")
    TypeExpr.read "?Foo" = .ok t ∧ t.absolute = .nullable (.name "\\Foo") ∧
      (s.addReturn "?Foo").1.text = some "/**\n * @return \\?Foo\n */".toList ∧
      ¬∃ v, .tag ⟨"@return", .typed v⟩ ∈ (s.addReturn "?Foo").1.contents := by
  intro s t
  have hcontents : (s.addReturn "?Foo").1.contents =
      [.tag ⟨"@return", .malformed "\\?Foo"⟩] := by decide +kernel
  refine ⟨by decide +kernel, by decide +kernel, by decide +kernel, ?_⟩
  rw [hcontents]
  rintro ⟨v, hv⟩
  rw [List.mem_singleton] at hv
  injection hv with htag
  injection htag with hname hvalue
  cases hvalue

end DocSlot
end DocTypes
