import DocTypes.Proofs.Doc.Mentions
import DocTypes.Proofs.Doc.Retyping

/-!
The look at the text before types are replaced. It finds every tag that bears a type and is spelled
in small letters, wherever it stands. The tags bear a type in any case, so what it passes over are
the tags that are spelled otherwise.
-/
namespace DocTypes
open Text

/-- The name of a tag whose types can change stands here, as a whole word. -/
def BeginsTypeTag (s : Text) : Prop :=
  ∃ word ∈ ["param", "throws", "return", "var"], ∃ rest, s = word.toList ++ rest ∧
    rest.head?.all fun c => !isWordChar c

lemma isConfined_beginsTypeTag : IsConfined BeginsTypeTag := by
  have hcontinues : ["param", "throws", "return", "var"].all (·.toList.all continuesTagName) = true := by
    decide +kernel
  intro s c t hc
  have hword : isWordChar c = false := by
    have := hc.1
    simp only [continuesTagName, Bool.or_eq_false_iff] at this
    exact this.1.1
  have hhead : ∀ m : Text, (m ++ c :: t).head?.all (fun d => !isWordChar d) =
      m.head?.all fun d => !isWordChar d := by
    intro m
    cases m with
    | nil => simp [hword]
    | cons d m => rfl
  constructor
  · rintro ⟨word, hmem, rest, h, hrest⟩
    have hnot : c ∉ word.toList := by
      intro h
      have := List.all_eq_true.mp (List.all_eq_true.mp hcontinues word hmem) c h
      simp [hc.1] at this
    obtain ⟨m, hs, rfl⟩ := exists_append_of_notMem h hnot
    exact ⟨word, hmem, m, hs, hhead m ▸ hrest⟩
  · rintro ⟨word, hmem, rest, rfl, hrest⟩
    exact ⟨word, hmem, rest ++ c :: t, by simp, (hhead rest).trans hrest⟩

/-- In small letters the tags that bear a type are those whose types can change. -/
lemma beginsTypeTag_append {name rest : Text} (hn : '@' :: name ∈ Tag.typeBearingNames)
    (hr : endsTagName rest) : BeginsTypeTag (name ++ rest) := by
  have hname : ∃ word ∈ ["param", "throws", "return", "var"], name = word.toList := by
    simp only [Tag.typeBearingNames, List.mem_cons, List.not_mem_nil, or_false] at hn
    rcases hn with h | h | h | h
    · exact ⟨"var", by decide, (List.cons.inj h).2⟩
    · exact ⟨"param", by decide, (List.cons.inj h).2⟩
    · exact ⟨"return", by decide, (List.cons.inj h).2⟩
    · exact ⟨"throws", by decide, (List.cons.inj h).2⟩
  obtain ⟨word, hword, rfl⟩ := hname
  refine ⟨word, hword, rest, rfl, ?_⟩
  cases rest with
  | nil => rfl
  | cons c r =>
    simp only [endsTagName, continuesTagName, List.head?_cons, Option.all_some, Bool.not_eq_true',
      Bool.or_eq_false_iff] at hr ⊢
    exact hr.1.1

namespace DocSlot

lemma startsWithTypeTag_iff {s : Text} : startsWithTypeTag s = true ↔ BeginsTypeTag s := by
  rw [startsWithTypeTag, List.any_eq_true, BeginsTypeTag]
  refine exists_congr fun word => and_congr_right fun _ => ?_
  cases h : after? word.toList s with
  | none =>
    simp only [Bool.false_eq_true, false_iff, not_exists, not_and]
    rintro rest rfl
    simp [after?_eq_some_iff.mpr] at h
  | some r =>
    obtain rfl := after?_eq_some_iff.mp h
    have hrest : (∃ rest, word.toList ++ r = word.toList ++ rest ∧ rest.head?.all fun c => !isWordChar c) ↔
        r.head?.all fun c => !isWordChar c := by simp
    rw [hrest]
    cases r <;> simp

/-- The text is searched for just this. -/
lemma mentionsTypeTag_iff {s : Text} : mentionsTypeTag s = true ↔ Occurs BeginsTypeTag s := by
  induction s using mentionsTypeTag.induct with
  | case1 => simpa [mentionsTypeTag] using Occurs.not_nil BeginsTypeTag
  | case2 r ih =>
    rw [mentionsTypeTag, Bool.or_eq_true, ih, startsWithTypeTag_iff, Occurs.cons_iff]
    simp
  | case3 c r hmark ih =>
    rw [mentionsTypeTag, ih, Occurs.cons_iff]
    · have : c ≠ '@' := fun h => hmark h
      simp [this]
    · exact hmark

/-- The comment mentions a tag whose types can change. -/
def SpellsTypeTag (s : DocSlot) : Prop := ∃ text, s.text = some text ∧ Occurs BeginsTypeTag text

lemma hasTypeTags_iff {s : DocSlot} : s.hasTypeTags = true ↔ s.SpellsTypeTag := by
  rw [hasTypeTags, SpellsTypeTag]
  cases s.text <;> simp [mentionsTypeTag_iff]

/-- Every tag that bears a type and is spelled in small letters is found. -/
lemma spellsTypeTag_of_mem_tags {s : DocSlot} {t : Tag TypeRef} (ht : t ∈ s.tree.tags)
    (hn : t.name ∈ Tag.typeBearingNames) : s.SpellsTypeTag := by
  obtain ⟨_ | text, scope⟩ := s
  · cases ht
  · obtain ⟨l, rest, hrest, hoccurs⟩ := exists_line_of_mem_tags ht
    obtain ⟨name, hat⟩ : ∃ name, t.name = '@' :: name := by
      have hall : ∀ n ∈ Tag.typeBearingNames, n.head? = some '@' := by decide
      exact List.head?_eq_some_iff.mp (hall _ hn)
    refine ⟨text, rfl, hoccurs _ isConfined_beginsTypeTag ⟨[], name ++ rest, ?_, ?_⟩⟩
    · rw [Content.append_of_readTagName hrest, hat]
      rfl
    · exact beginsTypeTag_append (hat ▸ hn) (Content.endsTagName_of_readTagName hrest)

/-- An edit that reports no change leaves the comment as it is. -/
lemma editTree_of_snd_eq_false {f : DocTree → DocTree} {s : DocSlot} (h : (editTree f s).2 = false) :
    editTree f s = (s, false) := by
  obtain ⟨_ | text, scope⟩ := s
  · rfl
  · have hrun : editTree f ⟨some text, scope⟩ =
        writeBack ⟨some text, scope⟩ ⟨f ((DocTree.read text).resolveIn scope), text, scope⟩ := rfl
    rw [hrun] at h ⊢
    by_cases hp : DocComment.print ⟨f ((DocTree.read text).resolveIn scope), text, scope⟩ = []
    · simp [writeBack, hp] at h
    · rw [writeBack_of_ne_nil rfl hp] at h ⊢
      simp_all

variable {isSubtype : Text → Text → Bool} {old new : Text}

/-- A tag that bears a type, but is not spelled in small letters, has a name that would be written
otherwise. -/
def HidesChange (isSubtype : Text → Text → Bool) (old new : Text) (s : DocSlot) : Prop :=
  ∃ t ∈ s.tree.tags, Tag.bearsType t.name ∧ t.name ∉ Tag.typeBearingNames ∧
    ∃ r ∈ (Content.tag t).names, r.IsReplaced isSubtype old ∧
      r.written ≠ TypeRef.replacementName new

instance : DecidablePred (HidesChange isSubtype old new) := fun s =>
  inferInstanceAs (Decidable (∃ t ∈ s.tree.tags, Tag.bearsType t.name ∧
    t.name ∉ Tag.typeBearingNames ∧ ∃ r ∈ (Content.tag t).names, r.IsReplaced isSubtype old ∧
      r.written ≠ TypeRef.replacementName new))

/-- A change is one in a tag that is spelled in small letters, or a hidden one. -/
lemma spellsTypeTag_or_hidesChange {s : DocSlot} (hne : s.text ≠ some [])
    (h : (s.editTree (·.replaceType isSubtype old new s.scope)).2 = true) :
    s.SpellsTypeTag ∨ s.HidesChange isSubtype old new := by
  obtain ⟨_ | text, scope⟩ := s
  · cases h
  · rw [editTree_replaceType] at h
    have hchanged : ∃ r ∈ ((DocTree.read text).resolveIn scope).names,
        (r.retyped isSubtype old new scope).written ≠ r.written := by
      by_contra hall
      push Not at hall
      have hsame := editTree_of_isUnchanged (fun heq => hne (congrArg some heq))
        (DocTree.isUnchanged_mapNames hall
          (DocTree.isUnchanged_resolveIn scope (DocTree.isUnchanged_read text)))
      rw [hsame] at h
      cases h
    obtain ⟨r, hr, hwritten⟩ := hchanged
    obtain ⟨e, he, hre⟩ := List.mem_flatMap.mp hr
    cases hc : e.content with
    | text u => rw [hc] at hre; cases hre
    | tag t =>
      rw [hc] at hre
      have ht : t ∈ ((DocTree.read text).resolveIn scope).tags := DocTree.mem_tags.mpr ⟨e, he, hc⟩
      by_cases hsmall : t.name ∈ Tag.typeBearingNames
      · exact .inl (spellsTypeTag_of_mem_tags (s := ⟨some text, scope⟩) ht hsmall)
      · exact .inr ⟨t, ht, DocTree.bearsType_of_mem_names ht hre, hsmall, r, hre,
          TypeRef.written_retyped_ne_iff.mp hwritten⟩

/-- What is hidden would be a change. -/
lemma editTree_of_hidesChange {s : DocSlot} (hn : TypeExpr.isName new)
    (h : s.HidesChange isSubtype old new) :
    (s.editTree (·.replaceType isSubtype old new s.scope)).2 = true := by
  obtain ⟨t, ht, -, -, r, hr, hwritten⟩ := h
  obtain ⟨_ | text, scope⟩ := s
  · cases ht
  · obtain ⟨e, he, hc⟩ := DocTree.mem_tags.mp ht
    have hmem : r ∈ ((DocTree.read text).resolveIn scope).names :=
      List.mem_flatMap.mpr ⟨e, he, hc ▸ hr⟩
    have hne : text ≠ [] := by
      rintro rfl
      exact absurd (DocTree.isDocComment_of_mem_names hmem) (by decide)
    rw [editTree_replaceType]
    exact (editTree_mapNames_iff hne (isWord_retyped hn text scope)).mpr
      ⟨r, hmem, TypeRef.written_retyped_ne_iff.mpr hwritten⟩

/-- Replacing a type behind the look at the text is the same as without it exactly if a tag is
spelled out in small letters, or nothing would change. Such a tag is in the text wherever one was
read, so that only tags that are spelled otherwise hide a change, and they do. -/
theorem changeTypeOrSubtypes_eq_editTree_iff (s : DocSlot) (isSubtype : Text → Text → Bool)
    (old new : Text) :
    let unchecked := s.editTree (·.replaceType isSubtype old new s.scope)
    (s.changeTypeOrSubtypes isSubtype old new = unchecked ↔
      s.SpellsTypeTag ∨ unchecked.2 = false) ∧
    ((∃ t ∈ s.tree.tags, t.name ∈ Tag.typeBearingNames) → s.SpellsTypeTag) ∧
    (s.text ≠ some [] → unchecked.2 = true →
      s.SpellsTypeTag ∨ s.HidesChange isSubtype old new) ∧
    (TypeExpr.isName new → s.HidesChange isSubtype old new → unchecked.2 = true) := by
  intro unchecked
  refine ⟨?_, fun ⟨t, ht, hn⟩ => spellsTypeTag_of_mem_tags ht hn, spellsTypeTag_or_hidesChange,
    editTree_of_hidesChange⟩
  rw [changeTypeOrSubtypes, ← hasTypeTags_iff]
  cases s.hasTypeTags with
  | true => simp [unchecked]
  | false =>
    rw [if_neg (by decide)]
    refine ⟨fun h => .inr (congrArg Prod.snd h).symm, fun h => ?_⟩
    exact (editTree_of_snd_eq_false (h.resolve_left (by decide))).symm

/-- A tag in capitals beside one in small letters, and alone. -/
theorem changeTypeOrSubtypes_eq_editTree_iff_capitals :
    let unrelated : Text → Text → Bool := fun _ _ => false
    let both : DocSlot := ⟨some "/**\n * @PARAM A $a\n * @return A\n */", none⟩
    let alone : DocSlot := ⟨some "/** @Throws A */", none⟩
    let unchecked (s : DocSlot) := s.editTree (·.replaceType unrelated "A" "B" s.scope)
    (both.text ≠ some [] ∧ (unchecked both).2 = true ∧
      (both.SpellsTypeTag ∨ both.HidesChange unrelated "A" "B")) ∧
    ((∃ t ∈ both.tree.tags, t.name ∈ Tag.typeBearingNames) ∧ both.SpellsTypeTag) ∧
    both.changeTypeOrSubtypes unrelated "A" "B" = unchecked both ∧
    TypeExpr.isName "B" ∧ alone.HidesChange unrelated "A" "B" ∧ (unchecked alone).2 = true := by
  intro unrelated both alone unchecked
  obtain ⟨hsame, hsmall, hchange, -⟩ := changeTypeOrSubtypes_eq_editTree_iff both unrelated "A" "B"
  obtain ⟨-, -, -, hhidden⟩ := changeTypeOrSubtypes_eq_editTree_iff alone unrelated "A" "B"
  have htags : ∃ t ∈ both.tree.tags, t.name ∈ Tag.typeBearingNames := by decide +kernel
  have hchanged : (unchecked both).2 = true := by decide +kernel
  have hhides : alone.HidesChange unrelated "A" "B" := by decide +kernel
  exact ⟨⟨by decide, hchanged, hchange (by decide) hchanged⟩, ⟨htags, hsmall htags⟩,
    hsame.mpr (.inl (hsmall htags)), by decide, hhides, hhidden (by decide) hhides⟩

/-- The look at the text passes over a tag in capitals, whose type would be replaced. -/
theorem changeType_in_capitals :
    let s : DocSlot := ⟨some "/** @VAR A */", none⟩
    s.changeType "A" "B" = (s, false) ∧
      s.editTree (·.replaceType (fun _ _ => false) "A" "B" s.scope) =
        (⟨some "/** @VAR B */", none⟩, true) := by
  decide +kernel

end DocSlot
end DocTypes
