import DocTypes.Proofs.Doc.Edits

/-!
Lines that are printed again. An untouched line of an edited comment is printed where its entry
stands, without the white space at its end and with the line end of the comment, which is the same
for all lines.
-/
namespace DocTypes
open Text

namespace DocTree

/-- The lines of a comment as they stand in its text, each with a line feed behind it but the last
one. -/
def rawLines (text : Text) : List Text := splitOn '\n' (trimEnd text)

/-- The number of the line that an entry was read from. The first line counts as one if there is
something behind the opening mark. -/
def lineNumber (text : Text) (index : Nat) : Nat :=
  if isAllBlank (((rawLines text).headD []).drop 3) then index + 1 else index

/-- What is printed in front of an entry. -/
def front (d : DocTree) (position : Nat) : Text :=
  joinLines d.frame.lineEnd d.frame.header ((d.entries.take position).map d.frame.printLine) ++
    d.frame.lineEnd

/-! Reading. -/

/-- Behind the first line the lines are content one by one. -/
lemma getElem?_blockLines (first before : Text) {l : Text} {middle : List Text} {k : Nat}
    (h : middle[k]? = some l) :
    (blockLines first middle before)[if isAllBlank (openingOf first) then k else k + 1]? =
      some (contentLine l) := by
  have hk : k < middle.length := (List.getElem?_eq_some_iff.mp h).1
  have hmap : (middle.map contentLine)[k]? = some (contentLine l) := by
    rw [List.getElem?_map, h, Option.map_some]
  rw [blockLines]
  split
  · rw [List.nil_append, List.getElem?_append_left (by simpa using hk), hmap]
  · rw [List.singleton_append, List.cons_append, List.getElem?_cons_succ,
      List.getElem?_append_left (by simpa using hk), hmap]

/-- An entry whose line stands between the first line and the last one remembers it without the
white space at its end. -/
lemma line_of_origin {text l : Text} (hs : startsWith "/**" text) (hd : isDocComment (trim text))
    {e : Entry} (he : e ∈ (read text).entries) {o : Origin} (ho : e.origin = some o)
    (hl : (rawLines text)[lineNumber text o.index]? = some l) (hfirst : lineNumber text o.index ≠ 0)
    (hlast : lineNumber text o.index + 1 < (rawLines text).length) :
    ∃ b, (read text).frame = .block b ∧ b.lineEnd = lineEndOf text ∧ o.line = trimEnd l := by
  obtain ⟨hn, -⟩ | ⟨first, middle, last, hpieces, hread⟩ := read_cases hd
  · rw [rawLines, splitOn_of_notMem hn] at hlast
    simp at hlast
  · obtain ⟨opening, rfl⟩ := exists_openMark_of_splitOn hs hd hpieces
    rw [hread] at he
    obtain ⟨sl, hsl, hline, -⟩ := exists_line_of_origin he ho
    refine ⟨_, by rw [hread]; rfl, rfl, ?_⟩
    have hblank : isAllBlank (openingOf (withoutReturn ("/**" ++ opening))) = isAllBlank opening := by
      rw [withoutReturn_openMark, openingOf_openMark, Bool.eq_iff_iff, ← trimEnd_eq_nil_iff,
        ← trimEnd_eq_nil_iff, trimEnd_withoutReturn]
    have hnumber : lineNumber text o.index = if isAllBlank opening then o.index + 1 else o.index := by
      rw [lineNumber, rawLines, hpieces]
      rfl
    obtain ⟨k, hk⟩ := Nat.exists_eq_succ_of_ne_zero hfirst
    rw [rawLines, hpieces, hk] at hl hlast
    have hshort : k < middle.length := by simpa using hlast
    rw [List.getElem?_cons_succ, List.getElem?_append_left hshort] at hl
    have hindex : o.index = if isAllBlank opening then k else k + 1 := by
      rw [hnumber] at hk
      split at hk <;> simp_all
    have hmiddle : (middle.map withoutReturn)[k]? = some (withoutReturn l) := by
      rw [List.getElem?_map, hl, Option.map_some]
    have hread' := getElem?_blockLines (withoutReturn ("/**" ++ opening)) last hmiddle
    rw [hblank, ← hindex, hsl] at hread'
    rw [hline, Option.some.inj hread', contentLine, trimEnd_withoutReturn]

/-! Printing. -/

lemma joinLines_append_cons (lineEnd first l : Text) (before behind : List Text) :
    joinLines lineEnd first (before ++ l :: behind) =
      joinLines lineEnd first before ++ lineEnd ++ joinLines lineEnd l behind := by
  simp [joinLines]

/-- In front of an entry stands what is printed for the entries in front of it, behind it a line
end. -/
lemma exists_print_front (source : Text) {d : DocTree} (hu : d.isUnchanged = false)
    (hb : d.isBlank = false) (hs : d.frame = .inline → ∀ e, d.entries ≠ [e]) {position : Nat}
    {e : Entry} (he : d.entries[position]? = some e) :
    ∃ behind, d.print source =
      d.front position ++ (d.frame.printLine e ++ d.frame.lineEnd) ++ behind := by
  obtain ⟨hlt, rfl⟩ := List.getElem?_eq_some_iff.mp he
  have hentries : d.entries = d.entries.take position ++ d.entries[position] ::
      d.entries.drop (position + 1) := by
    rw [← List.drop_eq_getElem_cons hlt, List.take_append_drop]
  obtain ⟨next, others, hnext⟩ := List.exists_cons_of_ne_nil (List.concat_ne_nil d.frame.footer
    ((d.entries.drop (position + 1)).map d.frame.printLine))
  refine ⟨joinLines d.frame.lineEnd next others, ?_⟩
  rw [print_spread hu hb hs, assemble_eq_joinLines, front]
  conv_lhs => rw [hentries]
  rw [List.map_append, List.map_cons, List.append_assoc, List.cons_append, hnext,
    joinLines_append_cons, joinLines_cons]
  simp only [List.append_assoc]

/-- A line and its line feed stand where the line is printed, if they are what is printed. -/
lemma exists_line_append_iff {l lineEnd front behind : Text} (hl : '\n' ∉ l)
    (he : IsLineEnd lineEnd) :
    (∃ rest, front ++ (trimEnd l ++ lineEnd) ++ behind = front ++ (l ++ "\n") ++ rest) ↔
      l ++ "\n" = trimEnd l ++ lineEnd := by
  refine ⟨?_, fun h => ⟨behind, by rw [h]⟩⟩
  rintro ⟨rest, h⟩
  obtain ⟨b, -, hb⟩ := exists_trimEnd_append_blank l
  obtain ⟨mark, rfl, hmark⟩ : ∃ mark : Text, lineEnd = mark ++ ['\n'] ∧ '\n' ∉ mark := by
    rcases he with rfl | rfl
    · exact ⟨[], rfl, by simp⟩
    · exact ⟨['\r'], rfl, by decide⟩
  have hfeed : '\n' ∉ b := fun hmem => hl (by rw [hb]; exact List.mem_append_right _ hmem)
  have hsame : mark ++ '\n' :: behind = b ++ '\n' :: rest := by
    have hl' : l ++ "\n" = trimEnd l ++ (b ++ "\n") := by rw [← List.append_assoc, ← hb]
    rw [hl'] at h
    simpa using h
  -- Up to the first line feed the two are the same.
  have hpieces := congrArg (splitOn '\n') hsame
  rw [splitOn_append_cons hmark, splitOn_append_cons hfeed] at hpieces
  rw [(List.cons.inj hpieces).1, ← List.append_assoc, ← hb]
  rfl

end DocTree

namespace TreeEdit
open DocTree

/-- However a comment is edited, each of its entries that is still untouched is printed as its line
without the white space at the end and with the line end of the comment. The line stands there as it
did in the text, line feed included, exactly if this is what it ended with. -/
theorem exists_print_run_line {text : Text} (hs : startsWith "/**" text)
    (hd : isDocComment (trim text)) (edits : List TreeEdit)
    (hu : (run edits (.read text)).isUnchanged = false)
    (hb : (run edits (.read text)).isBlank = false) {position : Nat} {e : Entry} {o : Origin}
    {l : Text} (he : (run edits (.read text)).entries[position]? = some e) (hkept : e.isUntouched)
    (ho : e.origin = some o) (hl : (rawLines text)[lineNumber text o.index]? = some l)
    (hfirst : lineNumber text o.index ≠ 0)
    (hlast : lineNumber text o.index + 1 < (rawLines text).length) :
    let d := run edits (.read text)
    (∃ behind, d.print text =
      d.front position ++ (trimEnd l ++ lineEndOf text) ++ behind) ∧
    ((∃ behind, d.print text = d.front position ++ (l ++ "\n") ++ behind) ↔
      l ++ "\n" = trimEnd l ++ lineEndOf text) := by
  intro d
  have hedit := isEditOf_run (isEditOf_refl (.read text)) edits
  obtain ⟨e₀, he₀, ho₀⟩ := hedit.origin e (List.mem_of_getElem? he) o ho
  obtain ⟨b, hframe, hend, hline⟩ := line_of_origin hs hd he₀ ho₀ hl hfirst hlast
  have hd' : d.frame = .block b := hedit.frame.trans hframe
  have hprinted : d.frame.printLine e ++ d.frame.lineEnd = trimEnd l ++ lineEndOf text := by
    obtain ⟨o', ho', hc⟩ := Entry.isUntouched_iff.mp hkept
    obtain rfl := Option.some.inj (ho.symm.trans ho')
    rw [hd', Frame.printLine_of_untouched _ ho hc, Frame.sourceLine, hline, Frame.lineEnd, hend]
  obtain ⟨behind, hbehind⟩ := exists_print_front text hu hb
    (fun h => by rw [hd'] at h; cases h) he
  rw [hprinted] at hbehind
  refine ⟨⟨behind, hbehind⟩, ?_⟩
  rw [hbehind]
  exact exists_line_append_iff (notMem_of_mem_splitOn (List.mem_of_getElem? hl))
    (isLineEnd_lineEndOf text)

/-- A line of a comment with the longer line ends, behind one that was removed. -/
theorem exists_print_run_line_crlf :
    let text : Text := "/**\r\n * A.\r\n * @var int\r\n *   B\r\n */"
    let d := run [.removeNamed "@var"] (.read text)
    d.print text = "/**\r\n * A.\r\n *   B\r\n */".toList ∧
      (∃ behind, d.print text = d.front 1 ++ (" *   B" ++ "\r\n") ++ behind) ∧
      ∃ behind, d.print text = d.front 1 ++ (" *   B\r" ++ "\n") ++ behind := by
  intro text d
  have hentry : d.entries[1]? =
      some ⟨.text "  B", some ⟨2, " *   B", .text "  B"⟩⟩ := by decide +kernel
  obtain ⟨hprinted, hline⟩ := exists_print_run_line (show startsWith "/**" text by decide) (l := " *   B\r")
    (by decide +kernel) [.removeNamed "@var"] (by decide +kernel) (by decide +kernel) hentry
    (by decide +kernel) rfl (by decide +kernel) (by decide +kernel) (by decide +kernel)
  exact ⟨by decide +kernel, hprinted, hline.mpr (by decide +kernel)⟩

/-- White space at the end of a line is lost, though nothing was done to the line. -/
theorem print_run_line_trimmed :
    let text : Text := "/**\n * Note.  \n * @var int\n */"
    let d := run [.removeNamed "@var"] (.read text)
    d.isUnchanged = false ∧ d.isBlank = false ∧
      d.entries = [⟨.text "Note.", some ⟨0, " * Note.", .text "Note."⟩⟩] ∧
      (∀ e ∈ d.entries, e.isUntouched) ∧
      lineNumber text 0 = 1 ∧ (rawLines text)[1]? = some " * Note.  ".toList ∧
      (rawLines text).length = 4 ∧ d.print text = "/**\n * Note.\n */".toList ∧
      ¬ " * Note.  \n".toList <:+: d.print text := by
  decide +kernel

end TreeEdit
end DocTypes
