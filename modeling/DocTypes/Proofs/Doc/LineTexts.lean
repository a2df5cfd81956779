import DocTypes.Proofs.Doc.Legal
import DocTypes.Proofs.Doc.Occurrences

/-!
The texts of the lines of a comment, before they are read as tags. Each entry of a tree has one of
them, and so it has in the printed comment.
-/
namespace DocTypes.DocTree
open Text

/-- The texts of the content lines, without marks and asterisks. -/
def lineTexts (text : Text) : List Text :=
  match sourceLines (trimEnd text) with
  | first :: second :: rest =>
    blockTexts first (second :: rest).dropLast ((second :: rest).getLast (List.cons_ne_nil _ _))
  | _ =>
    let content := trim (((trim text).drop 3).take ((trim text).length - 5))
    if content.isEmpty then [] else [content]

/-- The text of an entry on its line. -/
def lineText (d : DocTree) (e : Entry) : Text := lineContent (d.frame.printLine e)

lemma lineTexts_of_sourceLines {s first : Text} {rest : List Text}
    (hl : sourceLines (trimEnd s) = first :: rest) (hne : rest ≠ []) :
    lineTexts s = blockTexts first rest.dropLast (rest.getLast hne) := by
  obtain ⟨second, rest, rfl⟩ := List.exists_cons_of_ne_nil hne
  rw [lineTexts, hl]

lemma lineTexts_of_oneLine {s : Text} (hn : '\n' ∉ trimEnd s) : lineTexts s =
    if (trim (((trim s).drop 3).take ((trim s).length - 5))).isEmpty then []
    else [trim (((trim s).drop 3).take ((trim s).length - 5))] := by
  obtain ⟨l, hl⟩ := sourceLines_of_notMem hn
  rw [lineTexts, hl]

/-- A comment is read line by line. -/
theorem written_read_eq {text : Text} (hd : isDocComment (trim text)) :
    (read text).entries.map Entry.written = (lineTexts text).map Content.read := by
  cases hl : sourceLines (trimEnd text) with
  | nil => exact absurd (List.map_eq_nil_iff.mp hl) (splitOn_ne_nil _ _)
  | cons first rest =>
    cases rest with
    | nil =>
      rw [read, if_pos hd, lineTexts, hl]
      dsimp only
      rw [readInline, written_ofLines]
      split <;> rfl
    | cons second rest =>
      rw [lineTexts_of_sourceLines hl (by simp), read_of_sourceLines hd hl (by simp),
        written_readBlock]

lemma closingOf_closeMark (before : Text) : closingOf (before ++ "*/") = before := by
  have hclose : before? "*/" (before ++ "*/") = some before := before?_eq_some_iff.mpr rfl
  rw [closingOf, solid_closeMark.trimEnd_append, hclose, Option.getD_some]

/-- The lines of a comment that was put together. -/
lemma lineTexts_assemble {header b lineEnd : Text} {lines : List Text} (he : IsLineEnd lineEnd)
    (hh : IsLine header) (hbare : isAllBlank (openingOf header)) (hl : ∀ l ∈ lines, IsLine l)
    (hb : isAllBlank b) (hn : '\n' ∉ b) :
    lineTexts (assemble header lines (b ++ "*/") lineEnd) = lines.map lineContent := by
  rw [lineTexts_of_sourceLines (sourceLines_assemble he hh hl hn) (by simp), List.dropLast_concat,
    List.getLast_concat, blockTexts, closingOf_closeMark, if_pos hbare, if_pos hb, List.append_nil,
    List.nil_append]

/-- The line of a comment of one line. -/
lemma lineTexts_oneLine {content : Text} (hn : '\n' ∉ content) (hne : trim content ≠ []) :
    lineTexts ("/** " ++ content ++ " */") = [trim content] := by
  have hs : "/** " ++ content ++ " */" = "/**" ++ (" " ++ content ++ " ") ++ "*/" := by simp
  have hsolid := solid_between_marks (" " ++ content ++ " ")
  rw [hs, lineTexts_of_oneLine (by rw [hsolid.trimEnd_eq]; simp [hn]), hsolid.trim_eq,
    take_drop_between_marks, trim_between_blanks (by decide) (by decide)]
  simp [hne]

lemma lineContent_lead_of_trim {indent content : Text} (hi : isAllBlank indent)
    (hc : trim content = content) : lineContent (lead (indent ++ "* ") content) = content := by
  rw [lineContent_lead hi, ← hc, trimEnd_trim]

/-- The lines of a block as they are remembered have the texts of its lines. -/
lemma map_lineContent_blockLines (first before : Text) (middle : List Text) :
    (blockLines first middle before).map (fun l => lineContent l.line) =
      blockTexts first middle (before ++ "*/") := by
  have hfirst : ¬isAllBlank (openingOf first) →
      lineContent (before.takeWhile Text.isBlank ++ "* " ++ trim (openingOf first)) =
        trim (openingOf first) := by
    intro hne
    have hlead : lead (before.takeWhile Text.isBlank ++ "* ") (trim (openingOf first)) =
        before.takeWhile Text.isBlank ++ "* " ++ trim (openingOf first) :=
      if_neg (by simpa using mt trim_eq_nil_iff.mp hne)
    rw [← hlead, lineContent_lead_of_trim List.all_takeWhile (trim_trim _)]
  rw [blockLines, blockTexts, closingOf_closeMark, List.map_append, List.map_append, List.map_map]
  refine congrArg₂ _ (congrArg₂ _ ?_ ?_) ?_
  · split
    · rfl
    · rw [List.map_singleton, hfirst ‹_›]
  · exact List.map_congr_left fun l _ => lineContent_trimEnd l
  · split
    · rfl
    · rw [List.map_singleton]
      exact congrArg (fun t => [t]) (lineContent_trimEnd before)

/-- Each entry that was read has the text of its line. -/
lemma lineTexts_eq_map_lineText {text : Text} (hd : isDocComment (trim text)) :
    lineTexts text = (read text).entries.map (read text).lineText := by
  have hlineText : ∀ f lines, (ofLines f lines).entries.map (ofLines f lines).lineText =
      lines.map fun l => lineContent (f.sourceLine l.line) := by
    intro f lines
    have := congrArg (List.map lineContent) (map_printLine_ofLines f lines)
    rwa [List.map_map, List.map_map] at this
  obtain ⟨hn, hread⟩ | ⟨first, middle, last, hpieces, hread⟩ := read_cases hd
  · rw [lineTexts_of_oneLine hn, hread, readInline, hlineText]
    have hblank : isAllBlank " " := by decide
    split
    · rfl
    · rw [List.map_singleton]
      exact congrArg (fun t => [t]) (lineContent_lead_of_trim hblank (trim_trim _)).symm
  · have hlast : withoutReturn (last ++ "*/") = last ++ "*/" :=
      withoutReturn_of_isLine (isLine_of_trimEnd_eq
        (notMem_of_mem_splitOn (s := trimEnd text) (by simp [hpieces]))
        (solid_closeMark.trimEnd_append _))
    have hlines : sourceLines (trimEnd text) =
        withoutReturn first :: (middle.map withoutReturn ++ [last ++ "*/"]) := by
      rw [sourceLines, hpieces, List.map_cons, List.map_append]
      exact congrArg (fun l => _ :: (_ ++ [l])) hlast
    rw [hread, hlineText, lineTexts_of_sourceLines hlines (by simp), List.dropLast_concat,
      List.getLast_concat, ← map_lineContent_blockLines]
    rfl

/-- Each entry that is printed has the text of its line. -/
lemma lineTexts_print {d : DocTree} (hf : d.frame.IsClear) (hu : d.isUnchanged = false)
    (hb : d.isBlank = false) (source : Text)
    (h : ∀ e ∈ d.entries, e.IsKept d.frame ∨ e.isUntouched = false ∧ e.IsOneLine) :
    lineTexts (d.print source) = d.entries.map d.lineText := by
  obtain hs | ⟨hi, e, he⟩ := d.isSpread_or_single
  · obtain ⟨hl, b, hblank, hfeed, -, hprint⟩ := exists_print_spread hf hu hb hs h source
    rw [hprint, lineTexts_assemble hf.lineEnd hf.header hf.bare hl hblank hfeed, List.map_map]
    rfl
  · rw [hi] at h
    have hkept := h e (by simp [he])
    obtain ⟨hn, ht, -, -⟩ := read_printEntry hkept
    have htext : d.lineText e = trim (printEntry id e) := by
      rw [lineText, hi, ht]
      exact lineContent_lead_of_trim (by decide : isAllBlank " ") ht
    rw [print_single hi he hu hb, lineTexts_oneLine hn (trim_printEntry_ne_nil he hb hkept), he,
      List.map_singleton, htext]

end DocTypes.DocTree
