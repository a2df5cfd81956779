import DocTypes.Proofs.Doc.ChangeVar
import DocTypes.Proofs.Doc.Opening

/-!
What is written is a legal comment. A comment that is read is closed at its end only, and none of
the lines that are taken over from it closes it earlier. Text that is no doc comment is taken over
with the mark at its end, if it has one.
-/
namespace DocTypes
open Text

namespace DocTree

/-- Behind white space the comment begins with its mark, and the mark that closes it stands at its
end and nowhere else. -/
structure IsLegal (s : Text) : Prop where
  opens : startsWith "/**" (trimStart s)
  closes : endsWith "*/" s
  once : IsUnclosed s.dropLast

instance (s : Text) : Decidable (IsLegal s) :=
  decidable_of_iff (startsWith "/**" (trimStart s) ∧ endsWith "*/" s ∧ IsUnclosed s.dropLast)
    ⟨fun h => ⟨h.1, h.2.1, h.2.2⟩, fun h => ⟨h.1, h.2, h.3⟩⟩

lemma isLegal_append_closeMark_iff {s : Text} (h : startsWith "/**" (trimStart s)) :
    IsLegal (s ++ "*/") ↔ IsUnclosed s := by
  have honce : IsUnclosed (s ++ "*/").dropLast ↔ IsUnclosed s := by
    have hlast : (s ++ "*/").dropLast = s ++ ['*'] := by
      rw [List.dropLast_append_of_ne_nil (by simp)]
      rfl
    rw [hlast, isUnclosed_append_iff (.inr (by decide)), and_iff_left (by decide)]
  refine ⟨fun hl => honce.mp hl.once, fun hu => ⟨?_, endsWith_iff.mpr ⟨s, rfl⟩, honce.mpr hu⟩⟩
  exact startsWith_trimStart_append (by simp) h _

lemma isUnclosed_lead_iff {indent : Text} (hi : isAllBlank indent) (content : Text) :
    IsUnclosed (lead (indent ++ "* ") content) ↔ IsUnclosed content := by
  have hindent := isUnclosed_of_isAllBlank hi
  cases content with
  | nil =>
    rw [lead_nil]
    exact iff_of_true (hindent.append (by decide) (.inr (by decide))) (by decide)
  | cons c r =>
    have hmark : IsUnclosed (indent ++ ['*', ' ']) := hindent.append (by decide) (.inr (by decide))
    have hsplit : lead (indent ++ "* ") (c :: r) = (indent ++ ['*', ' ']) ++ c :: r := by
      rw [lead_cons, List.append_assoc]
      rfl
    rw [hsplit, isUnclosed_append_iff (.inl (by simp)), and_iff_right hmark]

end DocTree

/-! Printing. -/

namespace Frame
open DocTree

/-- No mark closes the comment before the last line does. -/
structure IsSound (f : Frame) : Prop where
  lineEnd : IsLineEnd f.lineEnd
  indent : isAllBlank f.indent
  header : IsUnclosed f.header
  footer : ∃ b, isAllBlank b ∧ f.footer = b ++ "*/"

lemma isSound_inline : inline.IsSound := ⟨.inl rfl, by decide, by decide, " ", by decide, rfl⟩

lemma isUnclosed_printLine_of_touched {f : Frame} (hf : f.IsSound) {e : Entry}
    (h : e.isUntouched = false) : IsUnclosed (f.printLine e) ↔ IsUnclosed e.written.render := by
  rw [printLine_of_touched f h, isUnclosed_lead_iff hf.indent]

end Frame

namespace DocTree

/-- What is printed can be legal: unless a line of an entry does, nothing closes the comment too
early. -/
structure IsSound (d : DocTree) : Prop where
  frame : d.frame.IsSound
  opens : d.IsOpened

/-- The text in front of the closing mark is the lines and what is left in front of it. -/
lemma isLegal_print_spread_iff {d : DocTree} {source : Text} (hf : d.frame.IsSound)
    (hu : d.isUnchanged = false) (hb : d.isBlank = false)
    (hs : d.frame = .inline → ∀ e, d.entries ≠ [e])
    (hopen : startsWith "/**" (trimStart (joinLines d.frame.lineEnd d.frame.header
      (d.entries.map d.frame.printLine)))) :
    IsLegal (d.print source) ↔ ∀ e ∈ d.entries, IsUnclosed (d.frame.printLine e) := by
  obtain ⟨b, hblank, hfooter⟩ := hf.footer
  have hprint : d.print source = joinLines d.frame.lineEnd d.frame.header
      (d.entries.map d.frame.printLine ++ [b]) ++ "*/" := by
    rw [print_spread hu hb hs, hfooter]
    simp [assemble, joinLines]
  have hopen' : startsWith "/**" (trimStart (joinLines d.frame.lineEnd d.frame.header
      (d.entries.map d.frame.printLine ++ [b]))) := by
    have := startsWith_trimStart_append (by simp) hopen (d.frame.lineEnd ++ b)
    simpa [joinLines] using this
  rw [hprint, isLegal_append_closeMark_iff hopen', isUnclosed_joinLines_iff hf.lineEnd,
    List.forall_mem_cons, List.forall_mem_append, List.forall_mem_singleton, List.forall_mem_map,
    and_iff_right hf.header, and_iff_left (isUnclosed_of_isAllBlank hblank)]

/-- A single entry stands on the line of the marks. -/
lemma isLegal_print_single_iff {d : DocTree} {source : Text} {e : Entry} (hd : d.frame = .inline)
    (he : d.entries = [e]) (hu : d.isUnchanged = false) (hb : d.isBlank = false) :
    IsLegal (d.print source) ↔ ∀ e ∈ d.entries, IsUnclosed (d.frame.printLine e) := by
  have hprint : d.print source = ("/** " ++ printEntry id e ++ " ") ++ "*/" := by
    rw [print_single hd he hu hb]
    simp
  have hopen : startsWith "/**" (trimStart ("/** " ++ printEntry id e ++ " ")) := by
    rw [List.append_assoc]
    exact startsWith_trimStart_append (by simp) (by decide) _
  have hline : d.frame.printLine e = lead (" " ++ "* ") (printEntry id e) := by rw [hd]; rfl
  have hmark : IsUnclosed "/** " ∧ IsUnclosed " " := by decide
  rw [hprint, isLegal_append_closeMark_iff hopen, isUnclosed_append_iff (.inr (by decide)),
    isUnclosed_append_iff (.inl (by decide)), and_iff_right hmark.1, and_iff_left hmark.2, he,
    List.forall_mem_singleton, hline, isUnclosed_lead_iff (by decide)]

lemma isLegal_print_iff {d : DocTree} {source : Text} (hf : d.frame.IsSound)
    (hu : d.isUnchanged = false) (hb : d.isBlank = false)
    (hopen : startsWith "/**" (trimStart (joinLines d.frame.lineEnd d.frame.header
      (d.entries.map d.frame.printLine)))) :
    IsLegal (d.print source) ↔ ∀ e ∈ d.entries, IsUnclosed (d.frame.printLine e) := by
  obtain hs | ⟨hd, e, he⟩ := d.isSpread_or_single
  · exact isLegal_print_spread_iff hf hu hb hs hopen
  · exact isLegal_print_single_iff hd he hu hb

lemma length_le_contentEnd {d : DocTree} {top rest : List Entry} (hd : top ++ rest = d.entries)
    (hlast : ∀ e ∈ top.getLast?, e.content.isBlank = false) : top.length ≤ d.contentEnd := by
  rcases List.eq_nil_or_concat' top with rfl | ⟨init, e, rfl⟩
  · exact Nat.zero_le _
  · have he : e.content.isBlank = false := hlast e (by simp)
    rw [contentEnd, ← hd, List.reverse_append, List.reverse_concat, List.dropWhile_append]
    split
    · rw [List.dropWhile_cons_of_neg (by simp [he])]
      simp
    · simp

/-- Putting in a tag leaves the entries at the beginning where they are, if the last of them is
content and none is a tag of the name. -/
lemma prefix_entries_putTag {t : Tag Text} {d : DocTree} {top : List Entry} (h : top <+: d.entries)
    (hn : ∀ e ∈ top, e.isTagNamed t.name = false)
    (hlast : ∀ e ∈ top.getLast?, e.content.isBlank = false) : top <+: (putTag t d).entries := by
  obtain ⟨rest, hd⟩ := h
  rw [putTag]
  cases hp : d.position? t.name with
  | some p =>
    -- The first tag of the name stands behind them.
    rw [position?, ← hd, List.findIdx?_append, List.findIdx?_eq_none_iff.mpr hn, Option.none_or,
      Option.map_eq_some_iff] at hp
    obtain ⟨q, -, rfl⟩ := hp
    have hkept : top <+: d.entries.filter fun e => !e.isTagNamed t.name := by
      rw [← hd, List.filter_append, List.filter_eq_self.mpr fun e he => by simp [hn e he]]
      exact List.prefix_append _ _
    exact (List.prefix_take_iff.mpr ⟨hkept, by omega⟩).trans (List.prefix_append _ _)
  | none =>
    exact (List.prefix_take_iff.mpr ⟨⟨rest, hd⟩, length_le_contentEnd hd hlast⟩).trans
      (List.prefix_append _ _)

/-- With a tag that does not close the comment, the comment is legal if none of the lines that stay
closes it. -/
theorem isLegal_print_putTag_iff {t : Tag Text} {d : DocTree} (hd : d.IsSound)
    (ht : IsUnclosed t.render) (source : Text) :
    IsLegal ((putTag t d).print source) ↔
      ∀ e ∈ d.entries, e.isTagNamed t.name = false → IsUnclosed (d.frame.printLine e) := by
  obtain ⟨hframe, es, fs, hput, hothers⟩ := exists_entries_putTag t d
  obtain ⟨top, htop, htext, hlast, hopen⟩ := hd.opens
  have hprefix := prefix_entries_putTag (t := t) htop
    (fun e he => by obtain ⟨s, hs⟩ := htext e he; rw [Entry.isTagNamed, hs]) hlast
  have hnew : IsUnclosed (d.frame.printLine (.new (.tag (t.map .ofWritten)))) := by
    rw [Frame.isUnclosed_printLine_of_touched hd.frame rfl, Entry.written_new_tag]
    exact ht
  rw [isLegal_print_iff (hframe.symm ▸ hd.frame) (isUnchanged_of_new hput) (isBlank_of_new hput)
    (by rw [hframe]; exact startsWith_of_prefix hprefix hopen), hframe, hput]
  have hmem : ∀ e, e ∈ es ++ fs ↔ e ∈ d.entries ∧ e.isTagNamed t.name = false := by
    simp [hothers]
  rw [List.forall_mem_append, List.forall_mem_cons, and_iff_right hnew, ← List.forall_mem_append]
  simp only [hmem, and_imp]

/-! Reading. -/

/-- A comment that is closed at its end only, up to its end. -/
lemma isUnclosed_of_trimEnd {text n : Text} (h : trimEnd text = n ++ "*/")
    (hu : IsUnclosed text.dropLast) : IsUnclosed n := by
  obtain ⟨b, -, hb⟩ := exists_trimEnd_append_blank text
  rw [h] at hb
  rcases List.eq_nil_or_concat' b with rfl | ⟨b, c, rfl⟩
  · refine hu.of_isInfix (List.IsPrefix.isInfix ?_)
    rw [hb, List.append_nil, List.dropLast_append_of_ne_nil (by simp)]
    exact List.prefix_append _ _
  · -- With anything behind it the mark would not be the end.
    refine absurd ?_ hu
    rw [hb, ← List.append_assoc, List.dropLast_concat]
    exact ⟨n, b, rfl⟩

/-- The lines of a comment, each without a mark. -/
structure IsSoundReading (f : Frame) (lines : List SourceLine) : Prop where
  frame : f.IsSound
  unclosed : ∀ l ∈ lines, IsUnclosed l.line

lemma isSoundReading_readInline {m : Text} (hm : IsUnclosed m) :
    ∃ f lines, readInline ("/**" ++ m ++ "*/") = ofLines f lines ∧ IsSoundReading f lines := by
  refine ⟨_, _, readInline_between_marks m, Frame.isSound_inline, ?_⟩
  split
  · simp
  · rw [List.forall_mem_singleton]
    exact hm.of_isInfix (trim_isInfix m)

lemma isUnclosed_contentLine {l : Text} (h : IsUnclosed l) : IsUnclosed (contentLine l).line :=
  h.of_isInfix (trimEnd_isPrefix l).isInfix

section
variable {first before lineEnd : Text} {middle : List Text}

lemma isSound_closedBlock (hfirst : IsUnclosed first) (he : IsLineEnd lineEnd) :
    (Frame.block (closedBlock first before lineEnd)).IsSound := by
  obtain ⟨b, hblank, -, hfooter⟩ := exists_footer_closedBlock first before lineEnd
  refine ⟨he, List.all_takeWhile, ?_, b, hblank, hfooter⟩
  rw [Frame.header, closedBlock]
  split
  · exact isUnclosed_contentLine hfirst
  · exact (by decide : IsUnclosed "/**")

lemma isUnclosed_of_mem_blockLines (h : ∀ l ∈ first :: middle ++ [before], IsUnclosed l) :
    ∀ l ∈ blockLines first middle before, IsUnclosed l.line := by
  have hindent : isAllBlank (before.takeWhile Text.isBlank) := List.all_takeWhile
  simp only [blockLines, List.forall_mem_append, List.forall_mem_map]
  refine ⟨⟨?_, fun l hl => isUnclosed_contentLine (h l (by simp [hl]))⟩, ?_⟩
  · split
    · exact List.forall_mem_nil _
    · have hmark : IsUnclosed (before.takeWhile Text.isBlank ++ "* ") :=
        (isUnclosed_of_isAllBlank hindent).append (by decide) (.inr (by decide))
      rw [List.forall_mem_singleton, isUnclosed_append_iff (.inl (by simp)), and_iff_right hmark]
      exact (h first (by simp)).of_isInfix ((trim_isInfix _).trans (openingOf_isInfix first))
  · split
    · exact List.forall_mem_nil _
    · rw [List.forall_mem_singleton]
      exact isUnclosed_contentLine (h before (by simp))

end

lemma isSoundReading_readBlock {n first before lineEnd : Text} {middle : List Text}
    (hcut : IsCut n (first :: middle) before) (hn : IsUnclosed n) (he : IsLineEnd lineEnd) :
    ∃ f lines, readBlock first middle (before ++ "*/") lineEnd = ofLines f lines ∧
      IsSoundReading f lines := by
  have hwithin : ∀ l ∈ first :: middle ++ [before], IsUnclosed l := fun l hl =>
    hn.of_isInfix (hcut.within l hl)
  exact ⟨_, _, readBlock_closeMark first before lineEnd middle,
    isSound_closedBlock (hwithin first (by simp)) he, isUnclosed_of_mem_blockLines hwithin⟩

lemma exists_isSoundReading {text : Text} (hd : isDocComment (trim text))
    (hu : IsUnclosed text.dropLast) :
    ∃ f lines, read text = ofLines f lines ∧ IsSoundReading f lines := by
  obtain ⟨n, hend, -, ⟨m, hm, hread⟩ | ⟨first, middle, before, hcut, hread⟩⟩ :=
    exists_cut_of_isDocComment hd
  · rw [hread]
    exact isSoundReading_readInline ((isUnclosed_of_trimEnd hend hu).of_isInfix hm)
  · rw [hread]
    exact isSoundReading_readBlock hcut (isUnclosed_of_trimEnd hend hu) (isLineEnd_lineEndOf text)

theorem isSound_read {text : Text} (hu : IsUnclosed text.dropLast) : (read text).IsSound := by
  cases hd : isDocComment (trim text) with
  | true =>
    obtain ⟨f, lines, hread, hsound⟩ := exists_isSoundReading hd hu
    refine ⟨?_, isOpened_read hd⟩
    rw [hread]
    exact hsound.frame
  | false =>
    rw [read_of_not_isDocComment hd]
    exact ⟨Frame.isSound_inline, [], List.nil_prefix, List.forall_mem_nil _, by simp, rfl⟩

/-- The lines of a comment do not close it. -/
theorem isUnclosed_of_mem_read {text : Text} (hd : isDocComment (trim text))
    (hu : IsUnclosed text.dropLast) :
    ∀ e ∈ (read text).entries, IsUnclosed ((read text).frame.printLine e) := by
  obtain ⟨f, lines, hread, hsound⟩ := exists_isSoundReading hd hu
  have hlines : ∀ line ∈ (ofLines f lines).entries.map f.printLine, IsUnclosed line := by
    rw [map_printLine_ofLines, List.forall_mem_map]
    intro l hl
    cases f with
    | inline =>
      have hindent : isAllBlank (" " : Text) := by decide
      exact (isUnclosed_lead_iff hindent l.line).mpr (hsound.unclosed l hl)
    | block b => exact hsound.unclosed l hl
  rw [hread]
  exact List.forall_mem_map.mp hlines

/-- The lines that are left when the tags of a name are taken out do not close the comment, unless
it is text with the mark at its end. -/
theorem forall_isUnclosed_read_iff {text : Text} (hu : IsUnclosed text.dropLast) (name : Text) :
    (∀ e ∈ (read text).entries, e.isTagNamed name = false →
      IsUnclosed ((read text).frame.printLine e)) ↔
        isDocComment (trim text) ∨ endsWith "*/" text = false := by
  by_cases hd : isDocComment (trim text)
  · exact iff_of_true (fun e he _ => isUnclosed_of_mem_read hd hu e he) (.inl hd)
  · have hread := read_of_not_isDocComment (Bool.eq_false_iff.mpr hd)
    have hline : Frame.inline.printLine (SourceLine.entry ⟨.text text, text⟩ 0) =
        lead (" " ++ "* ") text :=
      Frame.printLine_of_untouched .inline (o := ⟨0, text, .text text⟩) rfl rfl
    have hindent : isAllBlank (" " : Text) := by decide
    rw [or_iff_right hd, ← isUnclosed_iff_of_dropLast hu, ← isUnclosed_lead_iff hindent text,
      ← hline, hread]
    constructor
    · exact fun h => h _ (List.mem_singleton_self _) rfl
    · rintro h e he -
      obtain rfl := List.mem_singleton.mp he
      exact h

/-! Looking names up. -/

section
variable {g : TypeRef → TypeRef} (hg : ∀ r, (g r).written = r.written)
include hg

lemma IsSound.mapNames {d : DocTree} (h : d.IsSound) : (d.mapNames g).IsSound :=
  ⟨h.frame, h.opens.mapNames hg⟩

lemma forall_isUnclosed_mapNames_iff (d : DocTree) (name : Text) :
    (∀ e ∈ (d.mapNames g).entries, e.isTagNamed name = false →
      IsUnclosed ((d.mapNames g).frame.printLine e)) ↔
    ∀ e ∈ d.entries, e.isTagNamed name = false → IsUnclosed (d.frame.printLine e) := by
  have hframe : (d.mapNames g).frame = d.frame := rfl
  have hentries : (d.mapNames g).entries =
      d.entries.map fun e => { e with content := e.content.map g } := rfl
  have hnamed (e : Entry) :
      Entry.isTagNamed name { e with content := e.content.map g } = e.isTagNamed name := by
    cases h : e.content <;> simp only [Entry.isTagNamed, Content.map, Tag.map, h]
  simp only [hframe, hentries, List.forall_mem_map, hnamed, printLine_mapNames hg]

end

lemma isSound_blank : blank.IsSound :=
  ⟨⟨.inl rfl, by decide, by decide, " ", by decide, rfl⟩, [], List.nil_prefix, nofun, nofun,
    by decide⟩

end DocTree

namespace DocSlot
open DocTree

variable {s : DocSlot}

/-- After a tag was set that does not close the comment, it is legal unless it was no doc comment and
had the closing mark. -/
theorem isLegal_setTag_iff {t : Tag Text} (ht : IsUnclosed t.render)
    (hs : ∀ text, s.text = some text → IsUnclosed text.dropLast) :
    ∃ new, (s.setTag t).1.text = some new ∧ (IsLegal new ↔ ∀ text, s.text = some text →
      isDocComment (trim text) ∨ endsWith "*/" text = false) := by
  cases htext : s.text with
  | none =>
    refine ⟨_, by rw [text_setTag_of_none htext], ?_⟩
    exact iff_of_true ((isLegal_print_putTag_iff isSound_blank ht []).mpr nofun) nofun
  | some text =>
    have hu := hs text htext
    have hsound := (isSound_read hu).mapNames (TypeRef.written_resolveIn s.scope)
    refine ⟨_, by rw [text_setTag_of_some htext t (isSound_read hu).frame.lineEnd], ?_⟩
    have hlines := forall_isUnclosed_mapNames_iff (TypeRef.written_resolveIn s.scope) (read text)
      t.name
    exact ((isLegal_print_putTag_iff hsound ht text).trans hlines).trans
      ((forall_isUnclosed_read_iff hu t.name).trans (by simp))

/-- Setting the types of `@var` leaves a legal comment, exactly if the comment before was a doc
comment or did not end with the closing mark. -/
theorem isLegal_changeVar_iff {types : TypeSet} (hl : ∀ n ∈ types.toList, n.IsListable)
    (hs : ∀ text, s.text = some text → IsUnclosed text.dropLast)
    (hc : (s.changeVar types).2 = true) :
    ∃ new, (s.changeVar types).1.text = some new ∧ (IsLegal new ↔ ∀ text, s.text = some text →
      isDocComment (trim text) ∨ endsWith "*/" text = false) := by
  by_cases hidle : types.isEmpty || s.listsVarTypes types
  · rw [changeVar_of_idle hidle] at hc
    cases hc
  · have hset : s.changeVar types = s.setTag (typedTag "@var" types.inTag) := if_neg hidle
    -- No name and no mark of the type syntax holds a slash.
    have htypes : '/' ∉ types.inTag :=
      TypeSet.notMem_inTag_of_isListed (by decide +kernel) (by decide) (by decide) (by decide)
        (by decide) fun n hn => TypeName.isListed (hl n hn)
    have htag : '/' ∉ (typedTag "@var" types.inTag).render :=
      notMem_render_typedTag Tag.isTypeTag_var (by decide +kernel) (by decide) (by decide) (by decide) htypes
    rw [hset]
    exact isLegal_setTag_iff (isUnclosed_of_notMem htag) hs

/-- A comment that opens on its second line and is closed behind its content. -/
theorem isLegal_changeVar_glued :
    let s : DocSlot := ⟨some "\n  /**\n   * Note. */", none⟩
    let types : TypeSet := .ofNames ["Foo", "null"]
    (s.changeVar types).1.text = some "\n  /**\n   * Note.\n   * @var \\Foo|null\n   */".toList ∧
      IsLegal "\n  /**\n   * Note.\n   * @var \\Foo|null\n   */" := by
  intro s types
  have hlistable : ∀ n ∈ types.toList, n.IsListable := by decide +kernel
  have hclosed : ∀ text, s.text = some text → IsUnclosed text.dropLast := by
    rintro text ⟨⟩
    decide +kernel
  obtain ⟨new, hnew, hlegal⟩ := isLegal_changeVar_iff hlistable hclosed (by decide +kernel)
  have htext : (s.changeVar types).1.text =
      some "\n  /**\n   * Note.\n   * @var \\Foo|null\n   */".toList := by decide +kernel
  obtain rfl := Option.some.inj (hnew.symm.trans htext)
  refine ⟨htext, hlegal.mpr ?_⟩
  rintro text ⟨⟩
  exact .inl (by decide +kernel)

/-- A block comment is closed where it was, and again at the end. -/
theorem not_isLegal_changeVar_plain :
    let s : DocSlot := ⟨some "/* note */", none⟩
    let types : TypeSet := .ofNames ["Foo"]
    (∀ text, s.text = some text → IsUnclosed text.dropLast) ∧
      (∀ n ∈ types.toList, n.IsListable) ∧ (s.changeVar types).2 = true ∧
      (s.changeVar types).1.text = some "/**\n * /* note */\n * @var \\Foo\n */".toList ∧
      ¬ IsLegal "/**\n * /* note */\n * @var \\Foo\n */" := by
  refine ⟨?_, by decide +kernel, by decide +kernel, by decide +kernel, by decide +kernel⟩
  rintro text ⟨⟩
  decide +kernel

end DocSlot
end DocTypes
