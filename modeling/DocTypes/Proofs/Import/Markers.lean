import DocTypes.Proofs.Doc.LineMentions
import DocTypes.Proofs.Doc.Removal
import DocTypes.Proofs.Import.Class

/-!
Shortening the names of a class keeps the tags of its comments, with all that they mention. So the same
methods are marked as those that set up an instance.
-/
namespace DocTypes
open Text

/-- A tag that is looked for by its name alone, and not as an annotation class. -/
structure IsMarker (given : Text) : Prop where
  continues : ∀ c ∈ given.dropWhile (· == '@'), continuesTagName c
  plain : '\\' ∉ given

lemma isMarker_iff {given : Text} : IsMarker given ↔
    (given.dropWhile (· == '@')).all continuesTagName ∧ given.contains '\\' = false := by
  rw [List.all_eq_true, List.contains_eq_mem, decide_eq_false_iff_not]
  exact ⟨fun h => ⟨h.continues, h.plain⟩, fun h => ⟨h.1, h.2⟩⟩

instance : DecidablePred IsMarker := fun _ => decidable_of_iff' _ isMarker_iff

/-- Without a backslash a name stands for no annotation class. -/
lemma IsMarker.isClassTag {given : Text} (h : IsMarker given) (c : DocComment) (n : Text) :
    c.isClassTag (Tag.normalName given) n = false := by
  have hnormal : '\\' ∉ Tag.annotationClass (Tag.normalName given) := by
    intro hmem
    have hname : '\\' ∈ Tag.normalName given :=
      (List.dropWhile_suffix _).subset ((List.dropWhile_suffix _).subset hmem)
    rw [Tag.normalName, List.mem_cons, or_iff_right (by decide)] at hname
    exact h.plain (mem_of_mem_trim ((List.dropWhile_suffix _).subset hname))
  rw [DocComment.isClassTag]
  simp [hnormal]

/-- The tag of a line is called what it was, printed with other names and read again. -/
lemma Renaming.tagName_reread {r : Renaming} (h : r.IsRewording) :
    r.after.reread.tag?.map (·.name) = r.content.tag?.map (·.name) := by
  cases hu : r.after.isUntouched with
  | true =>
    rw [Entry.reread, if_pos hu, written_after]
    cases r.content <;> rfl
  | false =>
    obtain ⟨name, v, value, hcontent, -, -, hreread, -⟩ := h.exists_reread hu
    rw [hreread, hcontent]
    rfl

namespace DocSlot

variable {classExists : Text → Bool} {scope : NameScope} {p : PendingImports} {s s' : DocSlot}
  {given : Text}

/-- A comment spells a tag out where one of its lines does. -/
lemma spellsOut_iff_contents (htidy : s.IsTidy)
    (hcontinues : ∀ c ∈ given.dropWhile (· == '@'), continuesTagName c) :
    s.spellsOut given ↔ ∃ c ∈ s.contents, c.spellsOut (given.dropWhile (· == '@')) := by
  cases htext : s.text with
  | none =>
    rw [spellsOut, contents_eq, tree_of_none htext, htext]
    simp [DocTree.blank]
  | some text =>
    obtain ⟨lines, hlines, hspelled⟩ := DocTree.exists_lines (htidy text htext).2
    have hcontents : s.contents = (lines.map Content.read).map
        (·.map fun w => (TypeRef.ofWritten w).resolveIn s.scope) := by
      rw [contents_eq, tree_of_some htext, DocTree.contents_resolveIn_read, hlines]
    have hslot : s.spellsOut given ↔ IsSpelledOut (given.dropWhile (· == '@')) text := by
      rw [spellsOut, htext]
      simp
    rw [hslot, hspelled _ hcontinues, hcontents]
    simp only [List.mem_map, exists_exists_and_eq_and, Content.spellsOut_map,
      Content.spellsOut_read hcontinues]

/-- A marker is one of the tags where a line has this tag. -/
lemma tagsNamed_iff_contents (h : IsMarker given) : s.tagsNamed given ≠ [] ↔
    ∃ c ∈ s.contents, c.tag?.map (·.name) = some (Tag.normalName given) := by
  rw [tagsNamed, contents]
  cases s.comment? with
  | none => simp
  | some c =>
    simp only [DocComment.tagsNamed, h.isClassTag, Bool.or_false, ne_eq, List.filter_eq_nil_iff,
      DocTree.tags, List.mem_filterMap, not_forall, not_not, beq_iff_eq, List.mem_map,
      exists_exists_and_eq_and, Option.map_eq_some_iff]
    constructor
    · rintro ⟨t, ⟨e, he, htag⟩, hname⟩
      exact ⟨e, he, t, htag, hname⟩
    · rintro ⟨e, he, t, htag, hname⟩
      exact ⟨t, ⟨e, he, htag⟩, hname⟩

/-- A comment whose names were shortened has the markers it had. -/
theorem IsImport.hasTag_eq (h : s.IsImport classExists scope p s') (hscope : s.scope = some scope)
    (htidy : s.IsTidy) (hmarker : IsMarker given) :
    (s'.withPending p).hasTag given = s.hasTag given := by
  have htidyLater : (s'.withPending p).IsTidy := (h.isTidy hscope htidy).2
  obtain ⟨rs, hbefore, hafter, hrs, -⟩ := h.exists_renamings hscope htidy
  rw [Bool.eq_iff_iff, hasTag_iff, hasTag_iff, spellsOut_iff_contents htidyLater hmarker.continues,
    spellsOut_iff_contents htidy hmarker.continues, tagsNamed_iff_contents hmarker,
    tagsNamed_iff_contents hmarker, hafter, hbefore]
  simp only [List.mem_map, exists_exists_and_eq_and, Content.spellsOut_map]
  have hname : ∀ {ν μ : Type} (f : ν → μ) (c : Content ν),
      (c.map f).tag?.map (·.name) = c.tag?.map (·.name) := fun f c => by cases c <;> rfl
  simp only [hname]
  refine or_congr ?_ ?_
  · exact exists_congr fun r => and_congr_right fun hr =>
      Renaming.spellsOut_reread hmarker.continues (hrs r hr).isRewording
  · refine exists_congr fun r => and_congr_right fun hr => ?_
    rw [Renaming.tagName_reread (hrs r hr).isRewording]

end DocSlot

/-- The same methods set up an instance, if none is marked by an annotation class. -/
theorem ClassLike.IsImport.isInstantiating_eq {classExists : Text → Bool} {scope : NameScope}
    {p : PendingImports} {c c' : ClassLike} (h : c.IsImport classExists scope p c')
    (hscope : ∀ d ∈ c.docs, d.scope = some scope) (htidy : ∀ d ∈ c.docs, d.IsTidy)
    {o : InferenceOptions} (hmarkers : ∀ k ∈ o.instantiationMarkers, IsMarker k) :
    (c'.withPending p).methods.map (Strategy.isInstantiating o) =
      c.methods.map (Strategy.isInstantiating o) := by
  have hdocs : List.Forall₂ (fun d d' => ∀ k ∈ o.instantiationMarkers, d'.hasTag k = d.hasTag k)
      c.docs (c'.withPending p).docs := by
    rw [docs_withPending, List.forall₂_map_right_iff]
    exact (forall₂_and_mem h.docs h.docs).imp fun d d' ⟨hd, himport, _⟩ k hk =>
      himport.hasTag_eq (hscope d hd) (htidy d hd) (hmarkers k hk)
  have hmethods := forall₂_methods (by rw [withoutDocs_withPending, h.withoutDocs]) hdocs
  refine (map_eq_map_iff_forall₂.mpr (hmethods.imp fun m m' ⟨hname, htags⟩ => ?_)).symm
  have hany : o.instantiationMarkers.any m.doc.hasTag = o.instantiationMarkers.any m'.doc.hasTag := by
    rw [Bool.eq_iff_iff, List.any_eq_true, List.any_eq_true]
    exact exists_congr fun k => and_congr_right fun hk => by rw [htags k hk]
  rw [Strategy.isInstantiating, Strategy.isInstantiating, hname, hany]

end DocTypes
