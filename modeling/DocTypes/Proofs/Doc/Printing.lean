import DocTypes.Proofs.Doc.Entries

/-!
Printing a tree and reading it again. An entry comes back as what its printed line says: for an
untouched entry that is what it holds.
-/
namespace DocTypes
open Text

namespace Content

lemma isBlank_map {ν μ : Type} (f : ν → μ) (c : Content ν) : (c.map f).isBlank = c.isBlank := by
  cases c <;> rfl

end Content

namespace Entry

lemma isBlank_written (e : Entry) : e.written.isBlank = e.content.isBlank :=
  Content.isBlank_map _ _

/-- What the entry is read as once it is printed. -/
def reread (e : Entry) : Content Text := if e.isUntouched then e.written else .read e.written.render

/-- The text of the entry is one line without white space at its ends, and not empty unless the
entry is blank. -/
structure IsOneLine (e : Entry) : Prop where
  noFeed : '\n' ∉ e.written.render
  trimmed : trim e.written.render = e.written.render
  blank : e.written.render = [] → e.content.isBlank

lemma IsOneLine.trimmedEnd {e : Entry} (h : e.IsOneLine) :
    trimEnd e.written.render = e.written.render := by
  rw [← h.trimmed, trimEnd_trim]

lemma isUntouched_iff {e : Entry} :
    e.isUntouched = true ↔ ∃ o, e.origin = some o ∧ o.content = e.written := by
  rw [isUntouched]
  cases e.origin with
  | none => simp
  | some o => simp

end Entry

lemma Entry.IsKept.isUntouched {f : Frame} {e : Entry} (h : e.IsKept f) : e.isUntouched := by
  obtain ⟨o, ho, hc, -⟩ := h
  exact Entry.isUntouched_iff.mpr ⟨o, ho, hc⟩

/-- What an untouched entry holds was read from one line. -/
lemma Entry.IsKept.exists_line {f : Frame} {e : Entry} (h : e.IsKept f) :
    ∃ l, '\n' ∉ l ∧ e.written = .read l := by
  obtain ⟨o, -, hc, hf⟩ := h
  rw [← hc]
  cases f with
  | inline => exact ⟨o.line, hf.noFeed, (hf.alone rfl).2⟩
  | block b => exact ⟨_, fun h => hf.noFeed (DocTree.mem_of_mem_lineContent h), hf.among⟩

namespace Frame
open DocTree

/-- The first line of a comment of several lines. -/
def header : Frame → Text
  | .inline => "/**"
  | .block b => b.header

/-- The last line. -/
def footer : Frame → Text
  | .inline => " */"
  | .block b => b.footer.getD (b.indent ++ "*/")

lemma IsUsual.header_eq {f : Frame} (h : f.IsUsual) : f.header = "/**" := by
  cases f with
  | inline => rfl
  | block b => exact (h.marks b rfl).1

lemma IsUsual.footer_eq {f : Frame} (h : f.IsUsual) : f.footer = f.indent ++ "*/" := by
  cases f with
  | inline => rfl
  | block b => exact (h.marks b rfl).2

/-- A frame as it is read from any doc comment: its lines are put together and taken apart again. -/
structure IsClear (f : Frame) : Prop where
  blank : isAllBlank f.indent
  noFeed : '\n' ∉ f.indent
  lineEnd : IsLineEnd f.lineEnd
  header : IsLine f.header
  /-- The first line holds no content. -/
  bare : isAllBlank (openingOf f.header)
  footer : ∃ b, isAllBlank b ∧ '\n' ∉ b ∧ f.footer = b ++ "*/"

lemma IsUsual.isClear {f : Frame} (h : f.IsUsual) : f.IsClear := by
  refine ⟨h.blank, h.noFeed, h.lineEnd, ?_, ?_, f.indent, h.blank, h.noFeed, h.footer_eq⟩
  · rw [h.header_eq]
    exact isLine_openMark
  · rw [h.header_eq]
    decide

/-- The line of an entry, printed among other lines. -/
def printLine : Frame → Entry → Text
  | .inline, e => lead " * " (printEntry id e)
  | .block b, e => printEntry (lead (b.indent ++ "* ")) e

lemma printEntry_of_untouched (layout : Text → Text) {e : Entry} {o : Origin}
    (h : e.origin = some o) (hc : o.content = e.written) : printEntry layout e = o.line := by
  have hu : e.isUntouched := Entry.isUntouched_iff.mpr ⟨o, h, hc⟩
  rw [printEntry, h]
  exact if_pos hu

lemma printEntry_of_touched (layout : Text → Text) {e : Entry} (h : e.isUntouched = false) :
    printEntry layout e = layout e.written.render := by
  rw [printEntry]
  cases e.origin with
  | none => rfl
  | some o => simp [h]

lemma printLine_of_touched (f : Frame) {e : Entry} (h : e.isUntouched = false) :
    f.printLine e = lead (f.indent ++ "* ") e.written.render := by
  cases f with
  | inline =>
    rw [printLine, printEntry_of_touched _ h]
    rfl
  | block b => exact printEntry_of_touched _ h

lemma printLine_of_untouched (f : Frame) {e : Entry} {o : Origin} (h : e.origin = some o)
    (hc : o.content = e.written) : f.printLine e = f.sourceLine o.line := by
  cases f with
  | inline =>
    rw [printLine, printEntry_of_untouched _ h hc]
    rfl
  | block b => exact printEntry_of_untouched _ h hc

lemma exists_printLine_of_isKept {f : Frame} {e : Entry} (h : e.IsKept f) :
    ∃ line, f.printLine e = f.sourceLine line ∧ f.IsFaithful line e.written := by
  obtain ⟨o, ho, hc, hf⟩ := h
  exact ⟨o.line, printLine_of_untouched f ho hc, hc ▸ hf⟩

lemma IsFaithful.isLine {f : Frame} {line : Text} {content : Content Text}
    (h : f.IsFaithful line content) : IsLine line :=
  isLine_of_trimEnd_eq h.noFeed h.trimmed

lemma IsFaithful.isLine_sourceLine {f : Frame} {line : Text} {content : Content Text}
    (h : f.IsFaithful line content) : IsLine (f.sourceLine line) := by
  cases f with
  | inline =>
    have hn : '\n' ∉ (" " : Text) := by decide
    exact isLine_lead hn h.isLine
  | block b => exact h.isLine

/-- The printed line of an untouched entry reads as what the entry holds. -/
lemma read_printLine_of_isKept {f : Frame} {e : Entry} (h : e.IsKept f) :
    IsLine (f.printLine e) ∧ Content.read (lineContent (f.printLine e)) = e.written := by
  obtain ⟨line, hl, hf⟩ := exists_printLine_of_isKept h
  rw [hl]
  exact ⟨hf.isLine_sourceLine, hf.among.symm⟩

/-- The printed line of any other entry reads as its text without the white space at its end. -/
lemma read_printLine_of_touched {f : Frame} (hf : f.IsClear) {e : Entry}
    (h : e.isUntouched = false) (hl : IsLine e.written.render) :
    IsLine (f.printLine e) ∧
      Content.read (lineContent (f.printLine e)) = .read (trimEnd e.written.render) := by
  rw [printLine_of_touched f h]
  exact ⟨isLine_lead hf.noFeed hl, congrArg Content.read (lineContent_lead hf.blank _)⟩

end Frame

namespace DocTree

variable {d : DocTree} {source : Text}

/-- What stands on one line between the marks is a single entry. -/
lemma isSpread_or_single (d : DocTree) :
    (d.frame = .inline → ∀ e, d.entries ≠ [e]) ∨ d.frame = .inline ∧ ∃ e, d.entries = [e] := by
  cases d.frame with
  | block b => exact .inl nofun
  | inline =>
    by_cases h : ∃ e, d.entries = [e]
    · exact .inr ⟨rfl, h⟩
    · exact .inl fun _ => not_exists.mp h

/-- Unless a single entry stands between the marks on one line, every entry has a line. -/
lemma print_spread (hu : d.isUnchanged = false) (hb : d.isBlank = false)
    (hs : d.frame = .inline → ∀ e, d.entries ≠ [e]) :
    d.print source = assemble d.frame.header (d.entries.map d.frame.printLine) d.frame.footer
      d.frame.lineEnd := by
  rw [print, hu, hb, if_neg (by decide), if_neg (by decide)]
  cases hd : d.frame with
  | inline =>
    dsimp only
    split
    · exact absurd ‹_› (hs hd _)
    · rw [renderLines, List.map_map]
      rfl
  | block b => rfl

lemma print_lines (hf : d.frame.IsUsual) (hu : d.isUnchanged = false) (hb : d.isBlank = false)
    (hs : d.frame = .inline → ∀ e, d.entries ≠ [e]) :
    d.print source = assemble "/**" (d.entries.map d.frame.printLine) (d.frame.indent ++ "*/")
      d.frame.lineEnd := by
  rw [print_spread hu hb hs, hf.header_eq, hf.footer_eq]

lemma print_single {e : Entry} (hd : d.frame = .inline) (he : d.entries = [e])
    (hu : d.isUnchanged = false) (hb : d.isBlank = false) :
    d.print source = "/** " ++ printEntry id e ++ " */" := by
  rw [print, hu, hb, if_neg (by decide), if_neg (by decide), hd, he]

lemma print_ne_nil (he : IsLineEnd d.frame.lineEnd) (hu : d.isUnchanged = false)
    (hb : d.isBlank = false) : d.print source ≠ [] := by
  obtain hs | ⟨hd, e, hentries⟩ := d.isSpread_or_single
  · rw [print_spread hu hb hs]
    rcases he with he | he <;> simp [assemble, he]
  · simp [print_single hd hentries hu hb]

/-- A comment of several lines is read in the same layout, each entry from its line. -/
theorem read_print_lines (hf : d.frame.IsUsual) (hu : d.isUnchanged = false)
    (hb : d.isBlank = false) (hs : d.frame = .inline → ∀ e, d.entries ≠ [e])
    (hl : ∀ e ∈ d.entries, IsLine (d.frame.printLine e)) :
    read (d.print source) =
      ofLines d.frame.expanded (d.entries.map fun e => contentLine (d.frame.printLine e)) := by
  have hl' : ∀ l ∈ d.entries.map d.frame.printLine, IsLine l := by
    intro l h
    obtain ⟨e, he, rfl⟩ := List.mem_map.mp h
    exact hl e he
  rw [print_lines hf hu hb hs, read_assemble hf hl', List.map_map]
  rfl

/-- The line of the entry, printed among other lines, reads as the entry. -/
lemma read_printLine {f : Frame} (hf : f.IsClear) {e : Entry}
    (h : e.IsKept f ∨ e.isUntouched = false ∧ e.IsOneLine) :
    IsLine (f.printLine e) ∧ Content.read (lineContent (f.printLine e)) = e.reread := by
  rcases h with h | ⟨hu, hp⟩
  · rw [Entry.reread, if_pos h.isUntouched]
    exact Frame.read_printLine_of_isKept h
  · have := Frame.read_printLine_of_touched hf hu (isLine_of_trimEnd_eq hp.noFeed hp.trimmedEnd)
    rw [hp.trimmedEnd] at this
    simpa [Entry.reread, hu] using this

/-- The entry, printed between the marks on one line, reads as the entry. -/
lemma read_printEntry {e : Entry} (h : e.IsKept .inline ∨ e.isUntouched = false ∧ e.IsOneLine) :
    '\n' ∉ printEntry id e ∧ trim (printEntry id e) = printEntry id e ∧
      Content.read (printEntry id e) = e.reread ∧ (printEntry id e = [] → e.content.isBlank) := by
  rcases h with h | ⟨hu, hp⟩
  · have hu := h.isUntouched
    obtain ⟨o, ho, hc, hf⟩ := h
    obtain ⟨ht, hr⟩ := hf.alone rfl
    rw [Frame.printEntry_of_untouched _ ho hc, Entry.reread, if_pos hu, ← e.isBlank_written, ← hc]
    refine ⟨hf.noFeed, ht, hr.symm, fun hnil => ?_⟩
    rw [hr, hnil]
    rfl
  · rw [Frame.printEntry_of_touched _ hu, Entry.reread, hu, if_neg (by decide)]
    exact ⟨hp.noFeed, hp.trimmed, rfl, hp.blank⟩

/-- The lines that were put together, with the closing mark on the last one. -/
lemma sourceLines_assemble {header b lineEnd : Text} {lines : List Text} (he : IsLineEnd lineEnd)
    (hh : IsLine header) (hl : ∀ l ∈ lines, IsLine l) (hn : '\n' ∉ b) :
    sourceLines (trimEnd (assemble header lines (b ++ "*/") lineEnd)) =
      header :: (lines ++ [b ++ "*/"]) := by
  have hend : trimEnd (assemble header lines (b ++ "*/") lineEnd) =
      assemble header lines (b ++ "*/") lineEnd := by
    have hmark : ∃ s, assemble header lines (b ++ "*/") lineEnd = s ++ "*/" :=
      ⟨header ++ lines.flatMap (lineEnd ++ ·) ++ (lineEnd ++ b), by simp [assemble]⟩
    obtain ⟨s, hs⟩ := hmark
    rw [hs, solid_closeMark.trimEnd_append]
  have hfoot : IsLine (b ++ "*/") :=
    isLine_of_trimEnd_eq (by simp [hn]) (solid_closeMark.trimEnd_append b)
  have hrest : ∀ l ∈ lines ++ [b ++ "*/"], IsLine l := by
    rw [List.forall_mem_append, List.forall_mem_singleton]
    exact ⟨hl, hfoot⟩
  rw [hend, assemble_eq_joinLines, sourceLines_joinLines he hh hrest]

/-- Reading finds the lines that were put together, if they make a doc comment at all. -/
lemma written_read_joinLines {header b lineEnd : Text} {lines : List Text} (he : IsLineEnd lineEnd)
    (hh : IsLine header) (hbare : isAllBlank (openingOf header)) (hl : ∀ l ∈ lines, IsLine l)
    (hb : isAllBlank b) (hn : '\n' ∉ b)
    (hd : isDocComment (trim (assemble header lines (b ++ "*/") lineEnd))) :
    (read (assemble header lines (b ++ "*/") lineEnd)).entries.map Entry.written =
      lines.map fun l => Content.read (lineContent l) := by
  rw [read_of_sourceLines hd (sourceLines_assemble he hh hl hn) (by simp), List.dropLast_concat,
    List.getLast_concat, readBlock_closeMark, written_ofLines, blockLines, if_pos hbare, if_pos hb,
    List.append_nil, List.nil_append, List.map_map]
  rfl

/-- Where every entry has a line, the closing mark stands on one of its own, behind white space. -/
lemma exists_print_spread (hf : d.frame.IsClear) (hu : d.isUnchanged = false)
    (hb : d.isBlank = false) (hs : d.frame = .inline → ∀ e, d.entries ≠ [e])
    (h : ∀ e ∈ d.entries, e.IsKept d.frame ∨ e.isUntouched = false ∧ e.IsOneLine) (source : Text) :
    (∀ l ∈ d.entries.map d.frame.printLine, IsLine l) ∧ ∃ b, isAllBlank b ∧ '\n' ∉ b ∧
      d.frame.footer = b ++ "*/" ∧
      d.print source = assemble d.frame.header (d.entries.map d.frame.printLine) (b ++ "*/")
        d.frame.lineEnd := by
  obtain ⟨b, hblank, hfeed, hfooter⟩ := hf.footer
  refine ⟨?_, b, hblank, hfeed, hfooter, by rw [print_spread hu hb hs, hfooter]⟩
  rw [List.forall_mem_map]
  exact fun e he => (read_printLine hf (h e he)).1

/-- An entry that stands alone between the marks is not blank. -/
lemma trim_printEntry_ne_nil {e : Entry} (he : d.entries = [e]) (hb : d.isBlank = false)
    (h : e.IsKept .inline ∨ e.isUntouched = false ∧ e.IsOneLine) : trim (printEntry id e) ≠ [] := by
  obtain ⟨-, ht, -, hblank⟩ := read_printEntry h
  intro hnil
  have := hblank (ht.symm.trans hnil)
  simp [isBlank, he, this] at hb

/-- What was changed is read from its text, if each entry is kept or one line. -/
theorem written_read_print_of_isClear (hf : d.frame.IsClear) (hu : d.isUnchanged = false)
    (hb : d.isBlank = false) (hd : isDocComment (trim (d.print source)))
    (h : ∀ e ∈ d.entries, e.IsKept d.frame ∨ e.isUntouched = false ∧ e.IsOneLine) :
    (read (d.print source)).entries.map Entry.written = d.entries.map Entry.reread := by
  obtain hs | ⟨hi, e, he⟩ := d.isSpread_or_single
  · obtain ⟨hl, b, hblank, hfeed, -, hprint⟩ := exists_print_spread hf hu hb hs h source
    rw [hprint] at hd ⊢
    rw [written_read_joinLines hf.lineEnd hf.header hf.bare hl hblank hfeed hd, List.map_map]
    exact List.map_congr_left fun e he => (read_printLine hf (h e he)).2
  · rw [hi] at h
    have hkept := h e (by simp [he])
    obtain ⟨hn, ht, hr, -⟩ := read_printEntry hkept
    rw [print_single hi he hu hb, read_oneLine hn (trim_printEntry_ne_nil he hb hkept),
      written_ofLines, he, ht]
    exact congrArg (fun c => [c]) hr

/-- What is printed anew in the usual frame stands between the marks. -/
lemma exists_print_between_marks (hf : d.frame.IsUsual) (hu : d.isUnchanged = false)
    (hb : d.isBlank = false) (source : Text) : ∃ m, d.print source = "/**" ++ m ++ "*/" := by
  obtain hs | ⟨hi, e, he⟩ := d.isSpread_or_single
  · rw [print_lines hf hu hb hs]
    exact assemble_between_marks _ _ _
  · rw [print_single hi he hu hb]
    exact ⟨" " ++ printEntry id e ++ " ", by simp⟩

lemma isDocComment_print_usual (hf : d.frame.IsUsual) (hu : d.isUnchanged = false)
    (hb : d.isBlank = false) (source : Text) :
    startsWith "/**" (d.print source) ∧ isDocComment (trim (d.print source)) := by
  obtain ⟨m, hm⟩ := exists_print_between_marks hf hu hb source
  rw [hm]
  exact ⟨startsWith_between_marks m, isDocComment_trim_between_marks m⟩

/-- In the usual frame what is printed is a doc comment. -/
theorem written_read_print (hf : d.frame.IsUsual) (hu : d.isUnchanged = false)
    (hb : d.isBlank = false)
    (h : ∀ e ∈ d.entries, e.IsKept d.frame ∨ e.isUntouched = false ∧ e.IsOneLine) :
    (read (d.print source)).entries.map Entry.written = d.entries.map Entry.reread := by
  exact written_read_print_of_isClear hf.isClear hu hb (isDocComment_print_usual hf hu hb source).2 h

/-! The frame of a doc comment that does not begin with its mark. -/

lemma isAllBlank_openingOf_trimEnd {first : Text} (h : isAllBlank (openingOf first)) :
    isAllBlank (openingOf (trimEnd first)) := by
  rw [openingOf] at h
  cases ho : after? "/**" (trimStart first) with
  | none =>
    rw [ho, Option.getD_none] at h
    rw [trimEnd_eq_nil_iff.mpr h]
    rfl
  | some r =>
    rw [ho, Option.getD_some] at h
    have hmark : trimStart (trimEnd first) = "/**" := by
      rw [trimStart_trimEnd, ← after?_eq_some_iff.mp ho, trimEnd_append_of_blank h,
        solid_openMark.trimEnd_eq]
    rw [openingOf, hmark]
    rfl

/-- In front of the closing mark there is white space from the last line. -/
lemma exists_footer_closedBlock (first before lineEnd : Text) : ∃ b, isAllBlank b ∧ b ⊆ before ∧
    (Frame.block (closedBlock first before lineEnd)).footer = b ++ "*/" := by
  rw [Frame.footer, closedBlock]
  by_cases hblank : isAllBlank before
  · exact ⟨before, hblank, List.Subset.refl _, by rw [if_pos hblank, Option.getD_some]⟩
  · exact ⟨_, List.all_takeWhile, (List.takeWhile_sublist _).subset,
      by rw [if_neg hblank, Option.getD_none]⟩

lemma isClear_closedBlock {first before lineEnd : Text} (he : IsLineEnd lineEnd)
    (hf : '\n' ∉ first) (hb : '\n' ∉ before) :
    (Frame.block (closedBlock first before lineEnd)).IsClear := by
  obtain ⟨b, hblank, hsubset, hfooter⟩ := exists_footer_closedBlock first before lineEnd
  refine ⟨List.all_takeWhile, fun h => hb ((List.takeWhile_sublist _).mem h), he, ?_, ?_,
    b, hblank, fun h => hb (hsubset h), hfooter⟩
  · rw [Frame.header, closedBlock]
    split
    · exact isLine_of_trimEnd_eq (fun h => hf (mem_of_mem_trimEnd h)) (trimEnd_trimEnd first)
    · exact isLine_openMark
  · rw [Frame.header, closedBlock]
    split
    · exact isAllBlank_openingOf_trimEnd ‹_›
    · exact (by decide : isAllBlank (openingOf "/**"))

theorem isClear_read {text : Text} (hd : isDocComment (trim text)) : (read text).frame.IsClear := by
  obtain ⟨-, hread⟩ | ⟨first, middle, last, hpieces, hread⟩ := read_cases hd
  · rw [hread]
    exact Frame.isUsual_inline.isClear
  · have hfirst : '\n' ∉ first := notMem_of_mem_splitOn (s := trimEnd text) (by simp [hpieces])
    have hlast : '\n' ∉ last := fun h =>
      notMem_of_mem_splitOn (s := trimEnd text) (p := last ++ "*/") (by simp [hpieces])
        (List.mem_append_left _ h)
    rw [hread]
    exact isClear_closedBlock (isLineEnd_lineEndOf text) (notMem_withoutReturn hfirst) hlast

end DocTree
end DocTypes
