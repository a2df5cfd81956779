import DocTypes.Proofs.Doc.Layout

/-!
The entries of a comment that begins with `/**`. Each remembers a line that reads as what the entry
holds, so the lines that are printed for untouched entries are read as the same entries.
-/
namespace DocTypes

namespace TypeExpr

variable {ν : Type}

lemma map_id (t : TypeExpr ν) : t.map id = t := by
  have hlist : ∀ ts : List (TypeExpr ν), (∀ t ∈ ts, t.map id = t) → mapList id ts = ts := by
    intro ts h
    rw [mapList_eq]
    exact (List.map_congr_left h).trans (List.map_id ts)
  induction t with
  | name n => rfl
  | nullable t ih => rw [map, ih]
  | array t ih => rw [map, ih]
  | union ts ih => rw [map, hlist ts ih]
  | intersection ts ih => rw [map, hlist ts ih]
  | generic b ts ih => rw [map, hlist ts ih, id]

end TypeExpr

namespace Content

variable {ν μ ξ : Type}

lemma map_map (g : μ → ξ) (f : ν → μ) (c : Content ν) : (c.map f).map g = c.map (g ∘ f) := by
  cases c with
  | text s => rfl
  | tag t =>
    obtain ⟨name, value⟩ := t
    cases value with
    | typed v => simp [map, Tag.map, TagValue.map, TypedValue.map, TypeExpr.map_map]
    | plain s => rfl
    | malformed s => rfl

lemma map_id (c : Content ν) : c.map id = c := by
  cases c with
  | text s => rfl
  | tag t =>
    obtain ⟨name, value⟩ := t
    cases value with
    | typed v => simp [map, Tag.map, TagValue.map, TypedValue.map, TypeExpr.map_id]
    | plain s => rfl
    | malformed s => rfl

lemma map_written_ofWritten (c : Content Text) : (c.map .ofWritten).map TypeRef.written = c := by
  rw [map_map]
  exact map_id c

end Content

/-- What is known of the names besides their text is not written. -/
lemma Entry.written_mapContent {g : TypeRef → TypeRef} (hg : ∀ r, (g r).written = r.written)
    (e : Entry) : Entry.written { e with content := e.content.map g } = e.written := by
  rw [Entry.written, Content.map_map]
  exact congrArg (fun h => e.content.map h) (funext hg)

namespace DocTree
open Text

lemma mem_tags {d : DocTree} {t : Tag TypeRef} :
    t ∈ d.tags ↔ ∃ e ∈ d.entries, e.content = .tag t := by
  rw [tags, List.mem_filterMap]
  refine exists_congr fun e => and_congr_right fun _ => ?_
  cases e.content with
  | text s => simp [Content.tag?]
  | tag u => simp [Content.tag?]

@[simp] lemma written_entry (l : SourceLine) (i : Nat) : (l.entry i).written = l.content :=
  Content.map_written_ofWritten l.content

lemma written_ofLines (f : Frame) (lines : List SourceLine) :
    (ofLines f lines).entries.map Entry.written = lines.map (·.content) := by
  refine List.ext_getElem (by simp [ofLines]) fun i hi hj => ?_
  simp [ofLines]

end DocTree

/-! Faithful source lines. -/

namespace Frame
open Text

/-- The line of an untouched entry among other lines. -/
def sourceLine : Frame → Text → Text
  | .inline, line => DocTree.lead " * " line
  | .block _, line => line

/-- The source line reads as the content, as it stands and among other lines. -/
structure IsFaithful (f : Frame) (line : Text) (content : Content Text) : Prop where
  noFeed : '\n' ∉ line
  trimmed : trimEnd line = line
  among : content = .read (DocTree.lineContent (f.sourceLine line))
  alone : f = .inline → trim line = line ∧ content = .read line

lemma isFaithful_inline {line : Text} (hn : '\n' ∉ line) (ht : trim line = line) :
    inline.IsFaithful line (.read line) := by
  have hend : trimEnd line = line := by rw [← ht, trimEnd_trim]
  refine ⟨hn, hend, ?_, fun _ => ⟨ht, rfl⟩⟩
  have hi : isAllBlank " " := by decide
  have := DocTree.lineContent_lead hi line
  rw [hend] at this
  exact congrArg Content.read this.symm

lemma isFaithful_block {b : Block} {line : Text} (hn : '\n' ∉ line) (ht : trimEnd line = line) :
    (block b).IsFaithful line (.read (DocTree.lineContent line)) :=
  ⟨hn, ht, rfl, fun h => absurd h nofun⟩

end Frame

/-- The entry holds what was read, and its line tells so. -/
def Entry.IsKept (f : Frame) (e : Entry) : Prop :=
  ∃ o, e.origin = some o ∧ o.content = e.written ∧ f.IsFaithful o.line o.content

namespace DocTree
open Text

lemma isKept_ofLines {f : Frame} {lines : List SourceLine}
    (h : ∀ l ∈ lines, f.IsFaithful l.line l.content) :
    ∀ e ∈ (ofLines f lines).entries, e.IsKept f := by
  intro e he
  obtain ⟨i, hi, rfl⟩ := List.mem_mapIdx.mp he
  exact ⟨⟨i, lines[i].line, lines[i].content⟩, rfl, (written_entry _ _).symm,
    h _ (List.getElem_mem hi)⟩

lemma isFaithful_contentLine (b : Block) {l : Text} (hn : '\n' ∉ l) :
    (Frame.block b).IsFaithful (contentLine l).line (contentLine l).content := by
  have hfeed : '\n' ∉ trimEnd l := fun h => hn (mem_of_mem_trimEnd h)
  have := Frame.isFaithful_block (b := b) hfeed (trimEnd_trimEnd l)
  rwa [lineContent_trimEnd] at this

/-! Reading a comment that begins with `/**`. -/

lemma exists_between_marks {s : Text} (h : isDocComment s) :
    ∃ m : Text, s = "/**" ++ m ++ "*/" := by
  simp only [isDocComment, Bool.and_eq_true, decide_eq_true_eq] at h
  obtain ⟨⟨hs, he⟩, hl⟩ := h
  obtain ⟨r, rfl⟩ := startsWith_iff.mp hs
  obtain ⟨q, hq⟩ := endsWith_iff.mp he
  rcases List.append_eq_append_iff.mp hq with ⟨a, ha, hr⟩ | ⟨a, ha, hr⟩
  · have hlen := congrArg List.length ha
    have hr' := congrArg List.length hr
    have hq' := congrArg List.length hq
    simp only [List.length_append, String.length_toList] at hl hlen hr' hq'
    obtain rfl : a = [] := by
      apply List.eq_nil_of_length_eq_zero
      have : ("/**" : String).length = 3 := rfl
      have : ("*/" : String).length = 2 := rfl
      omega
    refine ⟨[], ?_⟩
    rw [List.append_nil, hr, List.nil_append]
  · exact ⟨a, by rw [hr, List.append_assoc]⟩

lemma trimEnd_eq_trim {text : Text} (h : startsWith "/**" text) : trimEnd text = trim text := by
  obtain ⟨r, rfl⟩ := startsWith_iff.mp h
  rw [trim, solid_openMark.trimStart_append]

/-- The frame of a block, from what stands behind the opening mark and in front of the closing one. -/
def blockBetween (opening before lineEnd : Text) : Block where
  header := if isAllBlank opening then trimEnd ("/**" ++ opening) else "/**"
  lineEnd := lineEnd
  indent := before.takeWhile Text.isBlank
  footer := if isAllBlank before then some (before ++ "*/") else none

lemma isUsual_blockBetween {opening before lineEnd : Text} (he : IsLineEnd lineEnd)
    (hb : '\n' ∉ before) : (Frame.block (blockBetween opening before lineEnd)).IsUsual := by
  unfold blockBetween
  refine ⟨?_, fun h => hb ((List.takeWhile_sublist _).mem h), he, fun b hb => ?_⟩
  · simp [Frame.indent, isAllBlank]
  · cases hb
    refine ⟨?_, ?_⟩
    · dsimp only
      split
      · rw [trimEnd_append_of_blank ‹_›, solid_openMark.trimEnd_eq]
      · rfl
    · dsimp only
      split
      · have : before.takeWhile Text.isBlank = before :=
          List.takeWhile_eq_self_iff.mpr (isAllBlank_iff.mp ‹_›)
        rw [this, Option.getD_some]
      · rfl

/-- Content behind the opening mark, on a line of its own. -/
lemma isFaithful_firstLine (b : Block) {opening indent : Text} (ho : '\n' ∉ opening)
    (hne : ¬isAllBlank opening) (hi : isAllBlank indent) (hn : '\n' ∉ indent) :
    (Frame.block b).IsFaithful (indent ++ "* " ++ trim opening) (.read (trim opening)) := by
  have hne' : trim opening ≠ [] := fun h => hne (trim_eq_nil_iff.mp h)
  have hlead : lead (indent ++ "* ") (trim opening) = indent ++ "* " ++ trim opening := by
    obtain ⟨c, r, hc⟩ := List.exists_cons_of_ne_nil hne'
    rw [hc, lead_cons, List.append_assoc]
    rfl
  have hcontent := lineContent_lead hi (trim opening)
  rw [trimEnd_trim, hlead] at hcontent
  have hfeed : '\n' ∉ indent ++ "* " ++ trim opening := by
    have ht : '\n' ∉ trim opening := fun h => ho (mem_of_mem_trim h)
    simp [hn, ht]
  have := Frame.isFaithful_block (b := b) hfeed ((solid_trim hne').trimEnd_append _)
  rwa [hcontent] at this

lemma contentLine_trimEnd (l : Text) : contentLine (trimEnd l) = contentLine l := by
  rw [contentLine, contentLine, lineContent_trimEnd, trimEnd_trimEnd]

/-- The first line behind the opening mark, or all of it. -/
def openingOf (first : Text) : Text := (after? "/**" (trimStart first)).getD first

/-- The frame of a block, from its first line and what stands in front of the closing mark. -/
def closedBlock (first before lineEnd : Text) : Block where
  header := if isAllBlank (openingOf first) then trimEnd first else "/**"
  lineEnd := lineEnd
  indent := before.takeWhile Text.isBlank
  footer := if isAllBlank before then some (before ++ "*/") else none

/-- The lines of a block that hold its content. -/
def blockLines (first : Text) (middle : List Text) (before : Text) : List SourceLine :=
  (if isAllBlank (openingOf first) then []
    else [⟨.read (trim (openingOf first)),
      before.takeWhile Text.isBlank ++ "* " ++ trim (openingOf first)⟩]) ++
    middle.map contentLine ++ (if isAllBlank before then [] else [contentLine before])

/-- The closing mark ends the last line. -/
lemma readBlock_closeMark (first before lineEnd : Text) (middle : List Text) :
    readBlock first middle (before ++ "*/") lineEnd =
      ofLines (.block (closedBlock first before lineEnd)) (blockLines first middle before) := by
  have hclose : before? "*/" (before ++ "*/") = some before := before?_eq_some_iff.mpr rfl
  simp only [readBlock, solid_closeMark.trimEnd_append, hclose, Option.getD_some,
    contentLine_trimEnd]
  rfl

lemma openingOf_openMark (opening : Text) : openingOf ("/**" ++ opening) = opening := by
  have hopen : after? "/**" ("/**" ++ opening) = some opening := after?_eq_some_iff.mpr rfl
  rw [openingOf, solid_openMark.trimStart_append, hopen, Option.getD_some]

lemma closedBlock_openMark (opening before lineEnd : Text) :
    closedBlock ("/**" ++ opening) before lineEnd = blockBetween opening before lineEnd := by
  rw [closedBlock, openingOf_openMark]
  rfl

lemma openingOf_isInfix (first : Text) : openingOf first <:+: first := by
  rw [openingOf]
  cases ho : after? "/**" (trimStart first) with
  | none => exact List.infix_rfl
  | some o =>
    have hsuffix : o <:+ trimStart first := ⟨_, after?_eq_some_iff.mp ho⟩
    exact (hsuffix.trans (List.dropWhile_suffix _)).isInfix

/-- Behind whatever stands at its end, the closing mark ends a doc comment. -/
lemma exists_trimEnd_closeMark {text : Text} (hd : isDocComment (trim text)) :
    ∃ n, trimEnd text = n ++ "*/" := by
  simp only [isDocComment, Bool.and_eq_true] at hd
  obtain ⟨r, hr⟩ := endsWith_iff.mp hd.1.2
  rw [trim, ← trimStart_trimEnd] at hr
  have hsplit := List.takeWhile_append_dropWhile (p := Text.isBlank) (l := trimEnd text)
  rw [show (trimEnd text).dropWhile Text.isBlank = r ++ "*/" from hr.symm] at hsplit
  exact ⟨_, by rw [List.append_assoc, hsplit]⟩

lemma isLineEnd_lineEndOf (s : Text) : IsLineEnd (lineEndOf s) := by
  rw [lineEndOf]
  split
  · exact .inr rfl
  · exact .inl rfl

/-- What is no doc comment is one text. -/
lemma read_of_not_isDocComment {text : Text} (hd : isDocComment (trim text) = false) :
    read text = ofLines .inline [⟨.text text, text⟩] := if_neg (by simp [hd])

lemma written_read_of_not_isDocComment {text : Text} (hd : isDocComment (trim text) = false) :
    (read text).entries.map Entry.written = [.text text] := by
  rw [read_of_not_isDocComment hd, written_ofLines, List.map_singleton]

/-- Only a doc comment has tags. -/
lemma isDocComment_of_tag {text : Text} {t : Tag Text}
    (h : .tag t ∈ (read text).entries.map Entry.written) : isDocComment (trim text) := by
  by_contra hd
  rw [written_read_of_not_isDocComment (Bool.eq_false_iff.mpr hd)] at h
  cases List.mem_singleton.mp h

/-- A doc comment is one line, or its lines are read one by one. -/
lemma read_cases {text : Text} (hd : isDocComment (trim text)) :
    '\n' ∉ trimEnd text ∧ read text = readInline (trim text) ∨
      ∃ (first : Text) (middle : List Text) (last : Text),
        splitOn '\n' (trimEnd text) = first :: (middle ++ [last ++ "*/"]) ∧
        read text = ofLines (.block (closedBlock (withoutReturn first) last (lineEndOf text)))
          (blockLines (withoutReturn first) (middle.map withoutReturn) last) := by
  obtain ⟨n, hn⟩ := exists_trimEnd_closeMark hd
  obtain ⟨init, last, -, hpieces⟩ :=
    exists_splitOn_append (show '\n' ∉ ("*/" : Text) by decide) n
  rw [← hn] at hpieces
  cases init with
  | nil =>
    have hfeed : '\n' ∉ trimEnd text := by
      have hjoin := join_splitOn '\n' (trimEnd text)
      have hlast : '\n' ∉ last ++ "*/" := notMem_of_mem_splitOn (s := trimEnd text) (by simp [hpieces])
      rw [hpieces] at hjoin
      rw [← hjoin]
      simpa [join] using hlast
    exact .inl ⟨hfeed, read_of_oneLine hd hfeed⟩
  | cons first middle =>
    have hlast : withoutReturn (last ++ "*/") = last ++ "*/" := by
      refine withoutReturn_of_isLine (isLine_of_trimEnd_eq ?_ (solid_closeMark.trimEnd_append _))
      exact notMem_of_mem_splitOn (s := trimEnd text) (by simp [hpieces])
    have hlines : sourceLines (trimEnd text) =
        withoutReturn first :: (middle.map withoutReturn ++ [last ++ "*/"]) := by
      rw [sourceLines, hpieces, List.cons_append, List.map_cons, List.map_append]
      exact congrArg (fun l => _ :: (_ ++ [l])) hlast
    have hread := read_of_sourceLines hd hlines (by simp)
    rw [List.dropLast_concat, List.getLast_concat, readBlock_closeMark] at hread
    exact .inr ⟨first, middle, last, hpieces, hread⟩

/-- Every line of a block is faithful. -/
lemma isFaithful_of_mem_blockLines (b : Block) {first before : Text} {middle : List Text}
    (hf : '\n' ∉ first) (hm : ∀ l ∈ middle, '\n' ∉ l) (hb : '\n' ∉ before) :
    ∀ l ∈ blockLines first middle before, (Frame.block b).IsFaithful l.line l.content := by
  simp only [blockLines, List.forall_mem_append, List.forall_mem_map]
  refine ⟨⟨?_, fun l hl => isFaithful_contentLine b (hm l hl)⟩, ?_⟩
  · split
    · exact List.forall_mem_nil _
    · rw [List.forall_mem_singleton]
      exact isFaithful_firstLine b (fun h => hf ((openingOf_isInfix first).subset h)) ‹_›
        List.all_takeWhile fun h => hb ((List.takeWhile_sublist _).mem h)
  · split
    · exact List.forall_mem_nil _
    · rw [List.forall_mem_singleton]
      exact isFaithful_contentLine b hb

/-- Every line that was read is faithful. -/
theorem isKept_read {text : Text} (hd : isDocComment (trim text)) :
    ∀ e ∈ (read text).entries, e.IsKept (read text).frame := by
  obtain ⟨hn, hread⟩ | ⟨first, middle, last, hpieces, hread⟩ := read_cases hd
  · rw [hread, readInline]
    refine isKept_ofLines fun l hl => ?_
    split at hl
    · cases hl
    · obtain rfl := List.mem_singleton.mp hl
      refine Frame.isFaithful_inline (fun h => hn ?_) (trim_trim _)
      have hmem := (List.drop_sublist _ _).mem ((List.take_sublist _ _).mem (mem_of_mem_trim h))
      rw [trim, ← trimStart_trimEnd] at hmem
      exact mem_of_mem_trimStart hmem
  · have hfeed : ∀ l ∈ first :: (middle ++ [last ++ "*/"]), '\n' ∉ l := fun l hl =>
      notMem_of_mem_splitOn (hpieces ▸ hl)
    simp only [List.forall_mem_cons, List.forall_mem_append] at hfeed
    obtain ⟨hfirst, hmiddle, hlast, -⟩ := hfeed
    rw [hread]
    refine isKept_ofLines (isFaithful_of_mem_blockLines _ (notMem_withoutReturn hfirst) ?_ ?_)
    · rw [List.forall_mem_map]
      exact fun l hl => notMem_withoutReturn (hmiddle l hl)
    · exact fun h => hlast (List.mem_append_left _ h)

/-- The first line begins with the mark that the text begins with. -/
lemma exists_openMark_of_splitOn {text first : Text} {rest : List Text} (hs : startsWith "/**" text)
    (hd : isDocComment (trim text)) (h : splitOn '\n' (trimEnd text) = first :: rest) :
    ∃ opening, first = "/**" ++ opening := by
  obtain ⟨m, hm⟩ := exists_between_marks hd
  obtain ⟨opening, rest', -, hopening⟩ :=
    exists_splitOn_prepend (show '\n' ∉ ("/**" : Text) by decide) (m ++ "*/")
  rw [← List.append_assoc, ← hm, ← trimEnd_eq_trim hs, h] at hopening
  exact ⟨opening, (List.cons.inj hopening).1⟩

/-- A comment that begins with its mark is read in the usual frame, with every line faithful. -/
theorem isUsual_read {text : Text} (hs : startsWith "/**" text) (hd : isDocComment (trim text)) :
    (read text).frame.IsUsual ∧ ∀ e ∈ (read text).entries, e.IsKept (read text).frame := by
  refine ⟨?_, isKept_read hd⟩
  obtain ⟨-, hread⟩ | ⟨first, middle, last, hpieces, hread⟩ := read_cases hd
  · rw [hread]
    exact Frame.isUsual_inline
  · obtain ⟨opening, rfl⟩ := exists_openMark_of_splitOn hs hd hpieces
    have hlast : '\n' ∉ last := fun h =>
      notMem_of_mem_splitOn (s := trimEnd text) (p := last ++ "*/") (by simp [hpieces])
        (List.mem_append_left _ h)
    rw [hread, withoutReturn_openMark, closedBlock_openMark]
    exact isUsual_blockBetween (isLineEnd_lineEndOf text) hlast

end DocTree
end DocTypes
