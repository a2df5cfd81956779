import DocTypes.Proofs.Doc.Legal
import DocTypes.Proofs.Doc.Mentions

/-!
The lines of a comment that begin with a tag. A tag is read behind an asterisk and one blank; set
back further it is text, and such a line stays when the tag is set.
-/
namespace DocTypes
open Text

namespace DocTree

/-- The lines between the marks, with whatever carriage return is at their end. -/
def bodyLines (text : Text) : List Text :=
  splitOn '\n' (((trim text).drop 3).take ((trim text).length - 5))

/-- The line behind white space and the asterisk, if there is one. -/
def afterMark (line : Text) : Text :=
  match trimStart line with
  | '*' :: r => trimStart r
  | r => r

/-- The first thing on the line is the tag. -/
def leadsWith (name line : Text) : Bool := DocSlot.startsWithName name (afterMark line)

/-- So it is, but behind the asterisk and two blanks at least. -/
def isSetBack (name line : Text) : Bool :=
  match trimStart line with
  | '*' :: c :: d :: r => Text.isBlank c && Text.isBlank d && DocSlot.startsWithName name (trimStart r)
  | _ => false

/-! White space around a line. -/

lemma afterMark_append_of_blank {b : Text} (hb : isAllBlank b) (l : Text) :
    afterMark (b ++ l) = afterMark l := by
  rw [afterMark, trimStart_append_of_blank hb]
  rfl

lemma afterMark_trimEnd (l : Text) : afterMark (trimEnd l) = trimEnd (afterMark l) := by
  rw [afterMark, afterMark, trimStart_trimEnd]
  cases h : trimStart l with
  | nil => rfl
  | cons c r =>
    have hsolid : Text.isBlank c = false := by
      obtain ⟨c', r', h', hc⟩ := trimStart_head l (by simp [h])
      rw [h] at h'
      rwa [(List.cons.inj h').1]
    have hcons : trimEnd (c :: r) = c :: trimEnd r :=
      (Solid.singleton hsolid).trimEnd_append_left r
    rw [hcons]
    by_cases hc : c = '*'
    · subst hc
      exact trimStart_trimEnd r
    · simp [hc, hcons]

variable {name : Text}

lemma leadsWith_of_blank (hne : name ≠ []) {l : Text} (h : isAllBlank l) : leadsWith name l = false := by
  rw [leadsWith, afterMark, trimStart_eq_nil_iff.mpr h, Bool.eq_false_iff, ne_eq,
    DocSlot.startsWithName_iff]
  rintro ⟨rest, hs, -⟩
  exact hne (List.append_eq_nil_iff.mp hs.symm).1

lemma isSetBack_of_blank {l : Text} (h : isAllBlank l) : isSetBack name l = false := by
  rw [isSetBack, trimStart_eq_nil_iff.mpr h]

/-- A content line that was laid out has one blank behind its asterisk. -/
lemma isSetBack_lead {indent content : Text} (hi : isAllBlank indent)
    (hc : trim content = content) : isSetBack name (lead (indent ++ "* ") content) = false := by
  cases content with
  | nil =>
    rw [lead_nil, isSetBack, trimStart_append_of_blank hi]
    rfl
  | cons c r =>
    obtain ⟨c', r', hcons, hsolid⟩ := (solid_trim (s := c :: r) (by simp [hc])).head
    rw [hc] at hcons
    obtain ⟨rfl, -⟩ := List.cons.inj hcons
    rw [lead_cons, isSetBack, trimStart_append_of_blank hi, trimStart_cons (by decide)]
    simp [hsolid]

section
variable (hname : IsTagName name)
include hname

lemma solid_tagName : Solid ('@' :: name) := by
  refine Solid.of_forall (List.forall_mem_cons.mpr ⟨by decide, fun c hc => ?_⟩) (by simp)
  rw [Bool.eq_false_iff]
  intro hb
  have := hname.continues c hc
  rw [continuesTagName_of_isBlank hb] at this
  cases this

lemma startsWithName_trimEnd (s : Text) :
    DocSlot.startsWithName ('@' :: name) (trimEnd s) = DocSlot.startsWithName ('@' :: name) s := by
  rw [Bool.eq_iff_iff, DocSlot.startsWithName_iff, DocSlot.startsWithName_iff]
  constructor
  · rintro ⟨rest, hs, hends⟩
    obtain ⟨b, hb, hsb⟩ := exists_trimEnd_append_blank s
    refine ⟨rest ++ b, by rw [hsb, hs, List.append_assoc], ?_⟩
    cases rest with
    | cons c r => exact hends
    | nil =>
      cases b with
      | nil => rfl
      | cons c b =>
        have hc := continuesTagName_of_isBlank (isAllBlank_iff.mp hb c (by simp))
        simp [endsTagName, hc]
  · rintro ⟨rest, rfl, hends⟩
    exact ⟨trimEnd rest, (solid_tagName hname).trimEnd_append_left rest, endsTagName_trimEnd hends⟩

lemma leadsWith_trimEnd (l : Text) :
    leadsWith ('@' :: name) (trimEnd l) = leadsWith ('@' :: name) l := by
  rw [leadsWith, afterMark_trimEnd, startsWithName_trimEnd hname]
  rfl

omit hname in
lemma startsWithName_of_blank {c : Char} (hc : Text.isBlank c) (r : Text) :
    DocSlot.startsWithName ('@' :: name) (c :: r) = false := by
  rw [Bool.eq_false_iff, ne_eq, DocSlot.startsWithName_iff]
  rintro ⟨rest, h, -⟩
  rw [(List.cons.inj h).1] at hc
  exact absurd hc (by decide)

/-- A line that begins with the tag is read as one unless the tag is set back. -/
lemma leadsWith_eq (l : Text) : leadsWith ('@' :: name) l =
    (DocSlot.startsWithName ('@' :: name) (lineContent l) || isSetBack ('@' :: name) l) := by
  rw [leadsWith, lineContent_eq, startsWithName_trimEnd hname, afterMark, isSetBack]
  cases trimStart l with
  | nil => rfl
  | cons c r =>
    by_cases hc : c = '*'
    · subst hc
      match r with
      | [] => rfl
      | [c] =>
        by_cases hc : Text.isBlank c <;> simp [afterStar, trimStart, hc]
      | c :: d :: r =>
        by_cases hc : Text.isBlank c
        · by_cases hd : Text.isBlank d
          · simp [afterStar, trimStart, hc, hd, startsWithName_of_blank hd]
          · simp [afterStar, trimStart, hc, hd]
        · simp [afterStar, trimStart, hc]
    · rw [afterStar_of_ne hc]
      simp [hc]

/-- Behind two blanks the line is not read as the tag. -/
lemma startsWithName_of_isSetBack {l : Text} (h : isSetBack ('@' :: name) l) :
    DocSlot.startsWithName ('@' :: name) (lineContent l) = false := by
  rw [isSetBack] at h
  split at h
  · rename_i c d r hl
    simp only [Bool.and_eq_true] at h
    rw [lineContent_eq, hl, afterStar, if_pos h.1.1, startsWithName_trimEnd hname,
      startsWithName_of_blank h.1.2]
  · cases h

lemma isSetBack_eq (l : Text) : isSetBack ('@' :: name) l =
    (leadsWith ('@' :: name) l && !DocSlot.startsWithName ('@' :: name) (lineContent l)) := by
  rw [leadsWith_eq hname]
  cases h : isSetBack ('@' :: name) l with
  | true => simp [startsWithName_of_isSetBack hname h]
  | false => simp

lemma isSetBack_trimEnd (l : Text) :
    isSetBack ('@' :: name) (trimEnd l) = isSetBack ('@' :: name) l := by
  rw [isSetBack_eq hname, isSetBack_eq hname, leadsWith_trimEnd hname, lineContent_trimEnd]

/-- White space behind a line makes no difference to what depends on the line without it. -/
lemma isSetBack_append_of_blank {b : Text} (hb : isAllBlank b) (l : Text) :
    isSetBack ('@' :: name) (l ++ b) = isSetBack ('@' :: name) l := by
  rw [← isSetBack_trimEnd hname, trimEnd_append_of_blank hb, isSetBack_trimEnd hname]

lemma leadsWith_append_of_blank {b : Text} (hb : isAllBlank b) (l : Text) :
    leadsWith ('@' :: name) (l ++ b) = leadsWith ('@' :: name) l := by
  rw [← leadsWith_trimEnd hname, trimEnd_append_of_blank hb, leadsWith_trimEnd hname]

/-- What a line is read as tells whether its content begins with the tag. -/
lemma any_tag_read (content : Text) :
    (Content.read content).tag?.any (·.name == '@' :: name) =
      DocSlot.startsWithName ('@' :: name) content := by
  rw [Bool.eq_iff_iff, DocSlot.startsWithName_iff]
  refine Iff.trans ?_ hname.readTagName_iff
  rw [Content.read]
  cases Content.readTagName content with
  | none => simp [Content.tag?]
  | some p => simp [Content.tag?, Prod.ext_iff]

/-- An entry is the tag or its line, if it begins with the tag at all, has the tag set back. -/
lemma leadsWith_printLine {f : Frame} {e : Entry} (h : e.IsKept f) :
    (leadsWith ('@' :: name) (f.printLine e) && !e.isTagNamed ('@' :: name)) =
      isSetBack ('@' :: name) (f.printLine e) := by
  rw [Entry.isTagNamed_eq, ← (Frame.read_printLine_of_isKept h).2, any_tag_read hname,
    isSetBack_eq hname]

/-- When the tags are gone, the lines that begin with the tag are those where it is set back. -/
lemma countP_filter_leadsWith {f : Frame} {es : List Entry} (h : ∀ e ∈ es, e.IsKept f) :
    (es.filter fun e => !e.isTagNamed ('@' :: name)).countP
        (fun e => leadsWith ('@' :: name) (f.printLine e)) =
      es.countP fun e => isSetBack ('@' :: name) (f.printLine e) := by
  rw [List.countP_filter]
  exact List.countP_congr fun e he => by rw [leadsWith_printLine hname (h e he)]

end

/-! Lines that are counted. -/

/-- What is said of lines whatever carriage return is at their end can be said line by line. -/
lemma map_splitOn_joinLines {α : Type} {f : Text → α} (hf : ∀ l, f (l ++ ['\r']) = f l)
    {lineEnd first : Text} {rest : List Text} (he : IsLineEnd lineEnd) :
    (splitOn '\n' (joinLines lineEnd first rest)).map f =
      (first :: rest).flatMap fun l => (splitOn '\n' l).map f := by
  induction rest generalizing first with
  | nil => rw [joinLines_nil, List.flatMap_singleton]
  | cons l rest ih =>
    obtain ⟨r, hreturn, hsplit⟩ := he.exists_splitOn_joinLines
    rw [hsplit, List.map_append, List.flatMap_cons, ← ih]
    rcases hreturn with rfl | rfl
    · rw [List.append_nil]
    · obtain ⟨init, last, hfirst, hlast⟩ :=
        exists_splitOn_append (show '\n' ∉ ['\r'] by decide) first
      rw [hfirst, hlast]
      simp [hf]

lemma countP_splitOn_joinLines {p : Text → Bool} (hp : ∀ l, p (l ++ ['\r']) = p l)
    {lineEnd first : Text} {rest : List Text} (he : IsLineEnd lineEnd)
    (hlines : ∀ l ∈ first :: rest, '\n' ∉ l) :
    (splitOn '\n' (joinLines lineEnd first rest)).countP p = (first :: rest).countP p := by
  have hpieces : ((first :: rest).flatMap fun l => (splitOn '\n' l).map p) =
      (first :: rest).map p := by
    rw [List.map_eq_flatMap]
    exact List.flatMap_congr fun l hl => by rw [splitOn_of_notMem (hlines l hl)]; rfl
  have hmap := congrArg (List.countP id) ((map_splitOn_joinLines hp he).trans hpieces)
  rwa [List.countP_map, List.countP_map] at hmap

lemma bodyLines_of_trim {text m : Text} (h : trim text = "/**" ++ m ++ "*/") :
    bodyLines text = splitOn '\n' m := by
  rw [bodyLines, h, take_drop_between_marks]

lemma bodyLines_between_marks (m : Text) : bodyLines ("/**" ++ m ++ "*/") = splitOn '\n' m :=
  bodyLines_of_trim (solid_between_marks m).trim_eq

/-- The lines of a comment, from the pieces of its text. -/
lemma exists_bodyLines {text first last : Text} {middle : List Text} (hs : startsWith "/**" text)
    (hd : isDocComment (trim text))
    (h : splitOn '\n' (trimEnd text) = first :: (middle ++ [last ++ "*/"])) :
    ∃ opening, first = "/**" ++ opening ∧ bodyLines text = opening :: (middle ++ [last]) := by
  obtain ⟨m, hm⟩ := exists_between_marks hd
  obtain ⟨first', rest, hrest, hopen⟩ :=
    exists_splitOn_prepend (show '\n' ∉ ("/**" : Text) by decide) (m ++ "*/")
  obtain ⟨init, last', hm', hclose⟩ :=
    exists_splitOn_append (show '\n' ∉ ("*/" : Text) by decide) m
  rw [← List.append_assoc, ← hm, ← trimEnd_eq_trim hs, h] at hopen
  obtain ⟨rfl, rfl⟩ := List.cons.inj hopen
  rw [hclose, ← List.cons_append] at hrest
  obtain ⟨rfl, hlast⟩ := List.append_inj' hrest rfl
  refine ⟨first', rfl, ?_⟩
  rw [bodyLines_of_trim hm, hm', List.append_cancel_right (List.cons.inj hlast).1]
  rfl

/-- The lines as they are printed have the tag set back where the lines had it so. -/
lemma countP_isSetBack_ofLines (f : Frame) (lines : List SourceLine) :
    (ofLines f lines).entries.countP (fun e => isSetBack name (f.printLine e)) =
      lines.countP fun l => isSetBack name (f.sourceLine l.line) := by
  have := congrArg (List.countP (isSetBack name)) (map_printLine_ofLines f lines)
  rwa [List.countP_map, List.countP_map] at this

/-- The lines of the entries stand between the marks, with the white space in front of the closing
one. -/
lemma print_between_marks {d : DocTree} {source : Text} (hf : d.frame.IsUsual)
    (hu : d.isUnchanged = false) (hb : d.isBlank = false)
    (hs : d.frame = .inline → ∀ e, d.entries ≠ [e]) :
    d.print source = "/**" ++ joinLines d.frame.lineEnd []
      (d.entries.map d.frame.printLine ++ [d.frame.indent]) ++ "*/" := by
  rw [print_lines hf hu hb hs]
  simp [assemble, joinLines]

section
variable (hname : IsTagName name)
include hname

/-- Whatever stands behind the opening mark, it is not set back. -/
lemma countP_isSetBack_blockLines (first before : Text) (middle : List Text) (b : Block) :
    (blockLines first middle before).countP
        (fun l => isSetBack ('@' :: name) ((Frame.block b).sourceLine l.line)) =
      (middle ++ [before]).countP (isSetBack ('@' :: name)) := by
  have hlead : ¬ isAllBlank (openingOf first) →
      isSetBack ('@' :: name) (before.takeWhile Text.isBlank ++ "* " ++ trim (openingOf first)) =
        false := by
    intro hblank
    have : isSetBack ('@' :: name) (lead (before.takeWhile Text.isBlank ++ "* ")
        (trim (openingOf first))) = false := isSetBack_lead List.all_takeWhile (trim_trim _)
    rwa [lead, if_neg (by simpa [trim_eq_nil_iff] using hblank)] at this
  have hmiddle : ∀ l, isSetBack ('@' :: name) ((Frame.block b).sourceLine (contentLine l).line) =
      isSetBack ('@' :: name) l := fun l => isSetBack_trimEnd hname l
  rw [blockLines, List.countP_append, List.countP_append, List.countP_append, List.countP_map,
    List.countP_singleton]
  refine (congrArg₂ (· + ·) (congrArg₂ (· + ·) (?_ : _ = 0) ?_) ?_).trans
    (congrArg (· + _) (Nat.zero_add _))
  · split
    · rfl
    · exact List.countP_singleton.trans (if_neg (Bool.eq_false_iff.mp (hlead ‹_›)))
  · exact List.countP_congr fun l _ => by rw [Function.comp_apply, hmiddle]
  · split
    · rw [isSetBack_of_blank ‹_›]
      rfl
    · exact List.countP_singleton.trans (by rw [hmiddle])

/-- What is printed for the entries that are read has the tag set back where a line behind the first
one has it so. -/
lemma countP_isSetBack_read {text : Text} (hs : startsWith "/**" text)
    (hd : isDocComment (trim text)) :
    (read text).entries.countP
        (fun e => isSetBack ('@' :: name) ((read text).frame.printLine e)) =
      (bodyLines text).tail.countP (isSetBack ('@' :: name)) := by
  obtain ⟨hn, hread⟩ | ⟨first, middle, last, hpieces, hread⟩ := read_cases hd
  · obtain ⟨m, hm⟩ := exists_between_marks hd
    have hfeed : '\n' ∉ m := by
      rw [trimEnd_eq_trim hs, hm] at hn
      exact fun h => hn (by simp [h])
    have hline : isSetBack ('@' :: name) (Frame.inline.sourceLine (trim m)) = false :=
      isSetBack_lead (show isAllBlank (" " : Text) by decide) (trim_trim m)
    rw [hread, bodyLines_of_trim hm, hm, readInline_between_marks, splitOn_of_notMem hfeed]
    refine (countP_isSetBack_ofLines .inline _).trans ?_
    split
    · rfl
    · exact List.countP_singleton.trans (if_neg (Bool.eq_false_iff.mp hline))
  · have hreturn : (isSetBack ('@' :: name)) ∘ withoutReturn = isSetBack ('@' :: name) := by
      funext l
      rcases withoutReturn_cases l with h | h
      · exact congrArg _ h
      · conv_rhs => rw [h]
        exact (isSetBack_append_of_blank hname (by decide) _).symm
    obtain ⟨opening, -, hlines⟩ := exists_bodyLines hs hd hpieces
    rw [hread, hlines, List.tail_cons]
    refine (countP_isSetBack_ofLines _ _).trans ((countP_isSetBack_blockLines hname _ _ _ _).trans ?_)
    rw [List.countP_append, List.countP_append, List.countP_map, hreturn]

variable {d : DocTree} {t : Tag Text}

/-- A comment of several lines has those that were printed, and nothing else begins with a tag. -/
lemma countP_bodyLines_print {source : Text} (hf : d.frame.IsUsual) (hu : d.isUnchanged = false)
    (hb : d.isBlank = false) (hs : d.frame = .inline → ∀ e, d.entries ≠ [e])
    (hl : ∀ e ∈ d.entries, IsLine (d.frame.printLine e)) :
    (bodyLines (d.print source)).countP (leadsWith ('@' :: name)) =
      d.entries.countP fun e => leadsWith ('@' :: name) (d.frame.printLine e) := by
  have hreturn : ∀ l, leadsWith ('@' :: name) (l ++ ['\r']) = leadsWith ('@' :: name) l :=
    leadsWith_append_of_blank hname (by decide)
  have hlines : ∀ l ∈ [] :: (d.entries.map d.frame.printLine ++ [d.frame.indent]), '\n' ∉ l := by
    rw [List.forall_mem_cons, List.forall_mem_append, List.forall_mem_map,
      List.forall_mem_singleton]
    exact ⟨by simp, fun e he => (hl e he).noFeed, hf.noFeed⟩
  have hnil : leadsWith ('@' :: name) [] = false := leadsWith_of_blank (by simp) rfl
  have hindent : leadsWith ('@' :: name) d.frame.indent = false :=
    leadsWith_of_blank (by simp) hf.blank
  rw [print_between_marks hf hu hb hs, bodyLines_between_marks, countP_splitOn_joinLines hreturn hf.lineEnd hlines,
    List.countP_cons_of_neg (by simp [hnil]), List.countP_append, List.countP_map,
    List.countP_singleton, if_neg (by simp [hindent]), Nat.add_zero]
  rfl

/-- The text of the tag begins with its name. -/
lemma startsWithName_render (ht : t.IsSteady) (htn : t.name = '@' :: name) :
    DocSlot.startsWithName ('@' :: name) (trimEnd t.render) = true := by
  obtain ⟨value, hv⟩ := ht.reads
  rw [← any_tag_read hname, hv]
  simp [Content.tag?, htn]

/-- Alone between the marks the tag is on the one line there is. -/
lemma countP_bodyLines_single (ht : t.IsSteady) (htn : t.name = '@' :: name) :
    (bodyLines ("/** " ++ t.render ++ " */")).countP (leadsWith ('@' :: name)) = 1 := by
  have hmarks : ("/** " ++ t.render ++ " */" : Text) = "/**" ++ (" " ++ t.render ++ " ") ++ "*/" := by
    simp
  have hline : leadsWith ('@' :: name) (" " ++ t.render ++ " ") = true := by
    have hstart := startsWithName_render hname ht htn
    obtain ⟨rest, hrest, -⟩ := DocSlot.startsWithName_iff.mp hstart
    have hbehind : afterMark (trimEnd t.render) = trimEnd t.render := by
      rw [hrest, List.cons_append, afterMark, trimStart_cons (by decide)]
      rfl
    rw [leadsWith_append_of_blank hname (by decide), leadsWith, afterMark_append_of_blank (by decide),
      ← leadsWith, ← leadsWith_trimEnd hname, leadsWith, hbehind, hstart]
  have hn : '\n' ∉ (" " ++ t.render ++ " " : Text) := by simp [ht.isLine.noFeed]
  rw [hmarks, bodyLines_between_marks, splitOn_of_notMem hn, List.countP_singleton, if_pos hline]

/-- After the tag was put, it is on one line, and on those besides where it was set back before. -/
theorem countP_bodyLines_putTag (hf : d.frame.IsUsual) (hk : ∀ e ∈ d.entries, e.IsKept d.frame)
    (ht : t.IsSteady) (htn : t.name = '@' :: name) (source : Text) :
    (bodyLines ((putTag t d).print source)).countP (leadsWith ('@' :: name)) =
      1 + d.entries.countP fun e => isSetBack ('@' :: name) (d.frame.printLine e) := by
  obtain ⟨hframe, es, fs, hput, hothers⟩ := exists_entries_putTag t d
  rw [htn] at hothers
  have hu := isUnchanged_of_new hput
  have hb := isBlank_of_new hput
  have hkept := isKept_of_others hothers hk
  rw [← countP_filter_leadsWith hname hk, ← hothers]
  obtain hs | ⟨hi, e, he⟩ := (putTag t d).isSpread_or_single
  · obtain ⟨hline, hcontent⟩ := lineContent_printLine_new hf ht
    have hl := isLine_printLine_of_others hput (hframe ▸ hline) fun e he =>
      hframe ▸ (hkept e he).1
    have hnew : leadsWith ('@' :: name) (d.frame.printLine (.new (.tag (t.map .ofWritten)))) := by
      rw [leadsWith_eq hname, hcontent, startsWithName_render hname ht htn, Bool.true_or]
    rw [countP_bodyLines_print hname (hframe ▸ hf) hu hb hs hl, hframe, hput, List.countP_append,
      List.countP_cons, if_pos hnew, List.countP_append]
    omega
  · rw [print_new_single hput hi he]
    rw [hput, List.append_eq_singleton_iff] at he
    obtain ⟨rfl, hfs⟩ | ⟨-, hnil⟩ := he
    · obtain ⟨-, rfl⟩ := List.cons.inj hfs
      exact countP_bodyLines_single hname ht htn
    · cases hnil

end

end DocTree

namespace DocSlot
open DocTree

variable {s : DocSlot} {name : Text}

lemma countP_isSetBack_tree (hname : IsTagName name) (hs : s.IsTidy) :
    s.tree.entries.countP (fun e => isSetBack ('@' :: name) (s.tree.frame.printLine e)) =
      (bodyLines (s.text.getD [])).tail.countP (isSetBack ('@' :: name)) := by
  cases htext : s.text with
  | none =>
    rw [tree_of_none htext]
    rfl
  | some text =>
    have hline : ∀ e : Entry,
        (read text).frame.printLine { e with content := e.content.map (·.resolveIn s.scope) } =
          (read text).frame.printLine e :=
      printLine_mapNames (TypeRef.written_resolveIn s.scope) _
    rw [Option.getD_some, ← countP_isSetBack_read hname (hs text htext).1 (hs text htext).2,
      tree_of_some htext]
    simp [DocTree.resolveIn, DocTree.mapNames, DocTree.mapContents, List.countP_map,
      Function.comp_def, hline]

lemma countP_bodyLines_setTag (hname : IsTagName name) (hs : s.IsTidy) {t : Tag Text}
    (ht : t.IsSteady) (htn : t.name = '@' :: name) :
    ∃ new, (s.setTag t).1.text = some new ∧
      (bodyLines new).countP (leadsWith ('@' :: name)) =
        1 + (bodyLines (s.text.getD [])).tail.countP (isSetBack ('@' :: name)) := by
  obtain ⟨hf, hk⟩ := isKept_tree hs
  refine ⟨_, by rw [setTag_eq_print hs t], ?_⟩
  rw [countP_bodyLines_putTag hname hf hk ht htn, countP_isSetBack_tree hname hs]

lemma isTagName_var : IsTagName "var" := Tag.isTypeTag_var.reads

/-- After the types of `@var` were set, one line begins with the tag, and besides it those lines
behind the first one where the tag was set back by more than one blank. -/
theorem countP_leadsWith_changeVar (hs : s.IsTidy) {types : TypeSet}
    (hl : ∀ n ∈ types.toList, n.IsListable) (hc : (s.changeVar types).2 = true) :
    ∃ new, (s.changeVar types).1.text = some new ∧
      (bodyLines new).countP (leadsWith "@var") =
        1 + (bodyLines (s.text.getD [])).tail.countP (isSetBack "@var") ∧
      ((bodyLines new).countP (leadsWith "@var") = 1 ↔
        ∀ l ∈ (bodyLines (s.text.getD [])).tail, isSetBack "@var" l = false) := by
  have hset : s.changeVar types = s.setTag (typedTag "@var" types.inTag) := by
    rw [changeVar]
    split
    · rename_i hidle
      rw [changeVar_of_idle hidle] at hc
      cases hc
    · rfl
  have hsteady := isSteady_of_isListed fun n hn => TypeName.isListed (hl n hn)
  obtain ⟨new, hnew, hcount⟩ := countP_bodyLines_setTag isTagName_var hs hsteady rfl
  refine ⟨new, by rw [hset, hnew], hcount, ?_⟩
  have hvar : ('@' :: ("var" : Text)) = ("@var" : Text) := rfl
  rw [← hvar, hcount, Nat.add_eq_left, List.countP_eq_zero]
  simp

/-- Tags on the first line, behind tabs, without an asterisk and without a blank behind it. -/
theorem countP_leadsWith_changeVar_spacings :
    let s : DocSlot :=
      ⟨some "/** @var A\n\t*\t@var B\n * Note on @var.\n  @var C\n *@variable */", none⟩
    let types : TypeSet := .ofNames ["Foo[]", "null"]
    (s.changeVar types).1.text =
        some "/**\n * @var \\Foo[]|null\n * Note on @var.\n *@variable\n */".toList ∧
      (bodyLines "/**\n * @var \\Foo[]|null\n * Note on @var.\n *@variable\n */").countP
        (leadsWith "@var") = 1 := by
  intro s types
  have htidy : s.IsTidy := by decide +kernel
  have hlistable : ∀ n ∈ types.toList, n.IsListable := by decide +kernel
  obtain ⟨new, hnew, -, hone⟩ := countP_leadsWith_changeVar htidy hlistable (by decide +kernel)
  have htext : (s.changeVar types).1.text =
      some "/**\n * @var \\Foo[]|null\n * Note on @var.\n *@variable\n */".toList := by
    decide +kernel
  obtain rfl := Option.some.inj (hnew.symm.trans htext)
  exact ⟨htext, hone.mpr (by decide +kernel)⟩

/-- With one blank more the old tag stays next to the new one. -/
theorem countP_leadsWith_changeVar_set_back :
    let s : DocSlot := ⟨some "/**\n *  @var int\n */", none⟩
    let types : TypeSet := .ofNames ["string"]
    (∀ text, s.text = some text →
        startsWith "/**" text ∧ DocTree.isDocComment (trim text)) ∧
      (∀ n ∈ types.toList, n.IsListable) ∧ (s.changeVar types).2 = true ∧
      (s.changeVar types).1.text = some "/**\n *  @var int\n * @var string\n */".toList ∧
      (bodyLines "/**\n *  @var int\n * @var string\n */").countP (leadsWith "@var") = 2 := by
  refine ⟨?_, by decide +kernel, by decide +kernel, by decide +kernel, by decide +kernel⟩
  rintro text ⟨⟩
  decide +kernel

end DocSlot
end DocTypes
