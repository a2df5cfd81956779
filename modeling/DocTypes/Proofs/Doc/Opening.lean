import DocTypes.Proofs.Doc.Printing

/-!
The line that opens a comment. It is the first one, or it stands among the content behind blank lines,
and then it is a text like any other. What is printed is a doc comment again as long as the texts at
the beginning are left alone.
-/
namespace DocTypes
open Text

namespace DocTree

/-- If the frame does not open the comment, the first entries do: they are texts, and the last of them
is not blank. -/
def IsOpened (d : DocTree) : Prop :=
  ∃ top, top <+: d.entries ∧ (∀ e ∈ top, ∃ s, e.content = .text s) ∧
    (∀ e ∈ top.getLast?, e.content.isBlank = false) ∧
    startsWith "/**" (trimStart (joinLines d.frame.lineEnd d.frame.header
      (top.map d.frame.printLine)))

/-! Printing. -/

/-- What the first entries open stays open with more entries behind them. -/
lemma startsWith_of_prefix {f : Frame} {top es : List Entry} (htop : top <+: es)
    (hopen : startsWith "/**" (trimStart (joinLines f.lineEnd f.header (top.map f.printLine)))) :
    startsWith "/**" (trimStart (joinLines f.lineEnd f.header (es.map f.printLine))) := by
  obtain ⟨rest, rfl⟩ := htop
  have := startsWith_trimStart_append (by simp) hopen
    ((rest.map f.printLine).flatMap (f.lineEnd ++ ·))
  simpa [joinLines] using this

lemma IsOpened.startsWith {d : DocTree} (h : d.IsOpened) : startsWith "/**" (trimStart
    (joinLines d.frame.lineEnd d.frame.header (d.entries.map d.frame.printLine))) := by
  obtain ⟨top, htop, -, -, hopen⟩ := h
  exact startsWith_of_prefix htop hopen

/-- The mark at the beginning and the one at the end make a doc comment, if there is something that
keeps them apart. -/
lemma isDocComment_trim_append {s b : Text} (h : startsWith "/**" (trimStart s)) :
    isDocComment (trim (s ++ b ++ "*/")) := by
  obtain ⟨r, hr⟩ := startsWith_iff.mp h
  have hs : ¬ isAllBlank s := by
    rw [← trimStart_eq_nil_iff, ← hr]
    simp
  have htrim : trim (s ++ b ++ "*/") = "/**" ++ (r ++ b) ++ "*/" := by
    rw [List.append_assoc, trim, trimStart_append hs, ← hr]
    have := (solid_between_marks (r ++ b)).trimEnd_eq
    simpa using this
  rw [htrim]
  exact isDocComment_between_marks _

/-- A comment that is opened is a doc comment when it is printed. -/
lemma isDocComment_print {d : DocTree} (h : d.IsOpened) (hf : d.frame.IsClear)
    (hu : d.isUnchanged = false) (hb : d.isBlank = false) (source : Text) :
    isDocComment (trim (d.print source)) := by
  obtain hs | ⟨hi, e, he⟩ := d.isSpread_or_single
  · obtain ⟨b, -, -, hfooter⟩ := hf.footer
    have hprint : d.print source = joinLines d.frame.lineEnd d.frame.header
        (d.entries.map d.frame.printLine) ++ (d.frame.lineEnd ++ b) ++ "*/" := by
      rw [print_spread hu hb hs, hfooter]
      simp [assemble, joinLines]
    rw [hprint]
    exact isDocComment_trim_append h.startsWith
  · have hprint : d.print source = "/**" ++ (" " ++ printEntry id e ++ " ") ++ "*/" := by
      rw [print_single hi he hu hb]
      simp
    rw [hprint]
    exact isDocComment_trim_append (by decide)

/-- It is enough that the texts are left. -/
lemma IsOpened.filter {d : DocTree} (h : d.IsOpened) {keep : Entry → Bool}
    (hkeep : ∀ e ∈ d.entries, ∀ s, e.content = .text s → keep e) :
    IsOpened { d with entries := d.entries.filter keep } := by
  obtain ⟨top, htop, htext, hlast, hopen⟩ := h
  refine ⟨top, ?_, htext, hlast, hopen⟩
  have hkept : top.filter keep = top := List.filter_eq_self.mpr fun e he => by
    obtain ⟨s, hs⟩ := htext e he
    exact hkeep e (htop.subset he) s hs
  obtain ⟨rest, hrest⟩ := htop
  rw [← hrest, List.filter_append, hkept]
  exact List.prefix_append _ _

section
variable {g : TypeRef → TypeRef} (hg : ∀ r, (g r).written = r.written)
include hg

lemma printLine_mapNames (f : Frame) (e : Entry) :
    f.printLine { e with content := e.content.map g } = f.printLine e := by
  have hw := Entry.written_mapContent hg e
  have hu : Entry.isUntouched { e with content := e.content.map g } = e.isUntouched := by
    rw [Entry.isUntouched, Entry.isUntouched, hw]
  cases f <;> simp only [Frame.printLine, printEntry, hu, hw]

/-- Looking names up changes none of this. -/
lemma IsOpened.mapNames {d : DocTree} (h : d.IsOpened) : (d.mapNames g).IsOpened := by
  obtain ⟨top, htop, htext, hlast, hopen⟩ := h
  refine ⟨top.map fun e => { e with content := e.content.map g }, htop.map _, ?_, ?_, ?_⟩
  · rw [List.forall_mem_map]
    intro e he
    obtain ⟨s, hs⟩ := htext e he
    exact ⟨s, by rw [hs]; rfl⟩
  · rw [List.getLast?_map]
    intro e' he'
    obtain ⟨e, he, rfl⟩ := Option.map_eq_some_iff.mp he'
    exact (Content.isBlank_map g _).trans (hlast e he)
  · have hlines : (top.map fun e => { e with content := e.content.map g }).map
        d.frame.printLine = top.map d.frame.printLine := by
      rw [List.map_map]
      exact List.map_congr_left fun e _ => printLine_mapNames hg d.frame e
    exact hlines.symm ▸ hopen

end

/-! Reading. -/

/-- The header opens the comment, or it is blank and a line among the content does. -/
def IsOpening (f : Frame) (lines : List SourceLine) : Prop :=
  startsWith "/**" (trimStart f.header) ∨ isAllBlank f.header ∧
    ∃ (blanks : List Text) (l : Text) (rest : List SourceLine),
      lines = blanks.map contentLine ++ contentLine l :: rest ∧ (∀ b ∈ blanks, isAllBlank b) ∧
        startsWith "/**" (trimStart l)

lemma not_isAllBlank_of_openMark {l : Text} (h : startsWith "/**" (trimStart l)) :
    ¬ isAllBlank l := by
  intro hb
  rw [trimStart_eq_nil_iff.mpr hb] at h
  exact absurd h (by decide)

/-- The lines in front of the closing mark are content, unless there is nothing on the last one. -/
lemma exists_contentLines {middle blanks rest : List Text} {before l : Text}
    (hlines : middle ++ [before] = blanks ++ l :: rest) (hl : startsWith "/**" (trimStart l)) :
    ∃ rest' : List SourceLine,
      middle.map contentLine ++ (if isAllBlank before then [] else [contentLine before]) =
        blanks.map contentLine ++ contentLine l :: rest' := by
  rcases List.eq_nil_or_concat' rest with rfl | ⟨rest, x, rfl⟩
  · obtain ⟨rfl, hlast⟩ := List.append_inj' hlines rfl
    obtain rfl : before = l := (List.cons.inj hlast).1
    exact ⟨[], by rw [if_neg (not_isAllBlank_of_openMark hl)]⟩
  · rw [← List.cons_append, ← List.append_assoc] at hlines
    obtain ⟨rfl, -⟩ := List.append_inj' hlines rfl
    exact ⟨rest.map contentLine ++ if isAllBlank before then [] else [contentLine before], by simp⟩

lemma openingOf_of_blank {first : Text} (h : isAllBlank first) : openingOf first = first := by
  rw [openingOf, trimStart_eq_nil_iff.mpr h]
  rfl

/-- The line that opens the comment is the first one, or it stands among the content. -/
lemma isOpening_blockLines {first before lineEnd : Text} {middle blanks rest : List Text} {l : Text}
    (hlines : first :: middle ++ [before] = blanks ++ l :: rest) (hblanks : ∀ b ∈ blanks, isAllBlank b)
    (hl : startsWith "/**" (trimStart l)) :
    IsOpening (.block (closedBlock first before lineEnd)) (blockLines first middle before) := by
  cases blanks with
  | nil =>
    obtain ⟨rfl, -⟩ := List.cons.inj hlines
    left
    rw [Frame.header, closedBlock]
    split
    · exact startsWith_trimStart_trimEnd solid_openMark hl
    · exact (by decide : startsWith "/**" (trimStart "/**"))
  | cons b blanks =>
    obtain ⟨rfl, hmiddle⟩ := List.cons.inj hlines
    rw [List.forall_mem_cons] at hblanks
    obtain ⟨rest', hrest⟩ := exists_contentLines hmiddle hl
    have hheader : (closedBlock first before lineEnd).header = [] := by
      rw [closedBlock, openingOf_of_blank hblanks.1, if_pos hblanks.1]
      exact trimEnd_eq_nil_iff.mpr hblanks.1
    refine .inr ⟨by rw [Frame.header, hheader]; rfl, blanks, l, rest', ?_, hblanks.2, hl⟩
    rw [blockLines, openingOf_of_blank hblanks.1, if_pos hblanks.1]
    exact hrest

lemma content_contentLine_of_blank {l : Text} (h : isAllBlank l) :
    (contentLine l).content = .text [] := by
  have hcontent : lineContent l = [] := by
    rw [lineContent_eq, trimStart_eq_nil_iff.mpr h]
    rfl
  rw [contentLine, hcontent]
  rfl

/-- A line that begins with the opening mark is text, and not blank. -/
lemma content_contentLine_of_openMark {l : Text} (h : startsWith "/**" (trimStart l)) :
    ∃ s, (contentLine l).content = .text s ∧ isAllBlank s = false := by
  obtain ⟨r, hr⟩ := startsWith_iff.mp h
  have hcontent : lineContent l = "/**" ++ trimEnd r := by
    rw [lineContent_eq, ← hr, ← solid_openMark.trimEnd_append_left]
    exact congrArg trimEnd (afterStar_of_ne (by decide) _)
  rw [contentLine, hcontent]
  exact ⟨_, rfl, rfl⟩

lemma map_printLine_ofLines (f : Frame) (lines : List SourceLine) :
    (ofLines f lines).entries.map f.printLine = lines.map fun l => f.sourceLine l.line := by
  refine List.ext_getElem (by simp [ofLines]) fun i hi hj => ?_
  simp only [ofLines, List.getElem_map, List.getElem_mapIdx]
  exact Frame.printLine_of_untouched f (o := ⟨i, _, _⟩) rfl (written_entry _ i).symm

lemma prefix_entries_ofLines (f : Frame) (lines rest : List SourceLine) :
    (ofLines f lines).entries <+: (ofLines f (lines ++ rest)).entries := by
  rw [ofLines, ofLines, List.mapIdx_append]
  exact List.prefix_append _ _

/-- The blank lines and the one that opens the comment are texts. -/
lemma content_of_mem_opening {blanks : List Text} {l : Text} (hblanks : ∀ b ∈ blanks, isAllBlank b)
    (hl : startsWith "/**" (trimStart l)) :
    ∀ k ∈ blanks.map contentLine ++ [contentLine l], ∃ s, k.content = .text s := by
  obtain ⟨s, hs, -⟩ := content_contentLine_of_openMark hl
  rw [List.forall_mem_append, List.forall_mem_map, List.forall_mem_singleton]
  exact ⟨fun b hb => ⟨_, content_contentLine_of_blank (hblanks b hb)⟩, s, hs⟩

lemma startsWith_opening {b : Block} {blanks : List Text} {l : Text} (he : IsLineEnd b.lineEnd)
    (hheader : isAllBlank b.header) (hblanks : ∀ b ∈ blanks, isAllBlank b)
    (hl : startsWith "/**" (trimStart l)) :
    startsWith "/**" (trimStart (joinLines b.lineEnd b.header
      ((blanks.map contentLine ++ [contentLine l]).map fun k =>
        (Frame.block b).sourceLine k.line))) := by
  have hlines : (blanks.map contentLine ++ [contentLine l]).map
      (fun k => (Frame.block b).sourceLine k.line) = blanks.map trimEnd ++ [trimEnd l] := by
    simp [Frame.sourceLine, contentLine]
  have hblank : ∀ b ∈ blanks.map trimEnd, isAllBlank b := by
    rw [List.forall_mem_map]
    intro b hb
    rw [trimEnd_eq_nil_iff.mpr (hblanks b hb)]
    rfl
  rw [hlines, trimStart_joinLines he hheader hblank]
  exact startsWith_trimStart_trimEnd solid_openMark hl

/-- Among the entries that are read the first ones open the comment. -/
lemma isOpened_ofLines {f : Frame} {lines : List SourceLine} (he : IsLineEnd f.lineEnd)
    (h : IsOpening f lines) : (ofLines f lines).IsOpened := by
  rcases h with hheader | ⟨hheader, blanks, l, rest, hlines, hblanks, hl⟩
  · refine ⟨[], List.nil_prefix, List.forall_mem_nil _, by simp, ?_⟩
    rw [List.map_nil, joinLines_nil]
    exact hheader
  · have htop := prefix_entries_ofLines f (blanks.map contentLine ++ [contentLine l]) rest
    rw [List.append_assoc, List.singleton_append, ← hlines] at htop
    refine ⟨_, htop, fun e he => ?_, fun e he => ?_, ?_⟩
    · obtain ⟨i, hi, rfl⟩ := List.mem_mapIdx.mp he
      obtain ⟨s, hs⟩ := content_of_mem_opening hblanks hl _ (List.getElem_mem hi)
      exact ⟨s, by rw [SourceLine.entry, hs]; rfl⟩
    · obtain ⟨s, hs, hsolid⟩ := content_contentLine_of_openMark hl
      rw [ofLines, List.mapIdx_concat, List.getLast?_concat, Option.mem_some_iff] at he
      rw [← he, SourceLine.entry, hs]
      exact hsolid
    · cases f with
      | inline => exact absurd hheader (by decide)
      | block b =>
        rw [show (ofLines (.block b) lines).frame = .block b from rfl,
          map_printLine_ofLines (.block b)]
        exact startsWith_opening he hheader hblanks hl

/-- What stands in front of the closing mark begins with the opening one. It is one line, or its lines
are read one by one. -/
lemma exists_cut_of_isDocComment {text : Text} (hd : isDocComment (trim text)) :
    ∃ n, trimEnd text = n ++ "*/" ∧ startsWith "/**" (trimStart n) ∧
      ((∃ m, m <:+: n ∧ read text = readInline ("/**" ++ m ++ "*/")) ∨
        ∃ first middle before, IsCut n (first :: middle) before ∧
          read text = readBlock first middle (before ++ "*/") (lineEndOf text)) := by
  obtain ⟨m, hm⟩ := exists_between_marks hd
  have hsplit := List.takeWhile_append_dropWhile (p := Text.isBlank) (l := trimEnd text)
  have hstart : (trimEnd text).dropWhile Text.isBlank = "/**" ++ m ++ "*/" := by
    rw [← hm, trim, ← trimStart_trimEnd]
    rfl
  generalize hws : (trimEnd text).takeWhile Text.isBlank = ws at hsplit
  have hblank : isAllBlank ws := hws ▸ List.all_takeWhile
  have hend : trimEnd text = ws ++ "/**" ++ m ++ "*/" := by
    rw [← hsplit, hstart]
    simp
  have hopen : startsWith "/**" (trimStart (ws ++ "/**" ++ m)) := by
    rw [List.append_assoc, trimStart_append_of_blank hblank, solid_openMark.trimStart_append]
    exact startsWith_iff.mpr ⟨m, rfl⟩
  refine ⟨ws ++ "/**" ++ m, hend, hopen, ?_⟩
  obtain ⟨middle, before, hcut⟩ := exists_isCut (ws ++ "/**" ++ m)
  have hlines := hcut.lines
  rw [← hend] at hlines
  cases middle with
  | nil =>
    refine .inl ⟨m, (List.suffix_append _ _).isInfix, ?_⟩
    rw [read, if_pos hd, hlines, hm]
    rfl
  | cons first middle =>
    rw [List.cons_append] at hlines
    refine .inr ⟨first, middle, before, hcut, ?_⟩
    rw [read_of_sourceLines hd hlines (by simp), List.dropLast_concat, List.getLast_concat]

/-- A doc comment is opened. -/
theorem isOpened_read {text : Text} (hd : isDocComment (trim text)) : (read text).IsOpened := by
  obtain ⟨n, -, hopen, ⟨m, -, hread⟩ | ⟨first, middle, before, hcut, hread⟩⟩ :=
    exists_cut_of_isDocComment hd
  · rw [hread, readInline_between_marks]
    exact isOpened_ofLines (.inl rfl) (.inl (by decide))
  · obtain ⟨blanks, l, rest, hlines, hblanks, hl⟩ := hcut.opens hopen
    rw [hread, readBlock_closeMark]
    exact isOpened_ofLines (isLineEnd_lineEndOf text) (isOpening_blockLines hlines hblanks hl)

end DocTree
end DocTypes
