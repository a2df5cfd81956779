import DocTypes.Doc.Printer
import DocTypes.Proofs.Text.Marks

/-!
The layout of a doc comment, printed and read. Whatever frame a tree was read with, it is printed
between `/**` and `*/` with one line for each entry, and a line gives its content back up to white
space at the end.
-/
namespace DocTypes

namespace Frame
open Text

def indent : Frame → Text
  | .inline => " "
  | .block b => b.indent

def lineEnd : Frame → Text
  | .inline => "\n"
  | .block b => b.lineEnd

/-- A frame as it is read from a text that begins with `/**`. -/
structure IsUsual (f : Frame) : Prop where
  blank : isAllBlank f.indent
  noFeed : '\n' ∉ f.indent
  lineEnd : IsLineEnd f.lineEnd
  marks : ∀ b, f = .block b →
    b.header = "/**" ∧ b.footer.getD (b.indent ++ "*/") = b.indent ++ "*/"

/-- The frame that a comment of several lines has after printing. -/
def expanded (f : Frame) : Frame := .block ⟨"/**", f.lineEnd, f.indent, some (f.indent ++ "*/")⟩

@[simp] lemma indent_expanded (f : Frame) : f.expanded.indent = f.indent := rfl

lemma IsUsual.expanded {f : Frame} (h : f.IsUsual) : f.expanded.IsUsual := by
  refine ⟨h.blank, h.noFeed, h.lineEnd, fun b hb => ?_⟩
  cases hb
  exact ⟨rfl, rfl⟩

lemma isUsual_inline : inline.IsUsual :=
  ⟨by decide, by decide, .inl rfl, fun _ h => absurd h nofun⟩

end Frame

namespace DocTree
open Text

/-! One line. -/

/-- The asterisk in front of a line is dropped, with one blank behind it. -/
def afterStar : Text → Text
  | '*' :: c :: r => if Text.isBlank c then r else c :: r
  | '*' :: [] => []
  | r => r

lemma lineContent_eq (l : Text) : lineContent l = trimEnd (afterStar (trimStart l)) := rfl

lemma afterStar_of_ne {c : Char} (h : c ≠ '*') (r : Text) : afterStar (c :: r) = c :: r := by
  rw [afterStar]
  · intro d s hs
    exact h (List.cons.inj hs).1
  · intro hs
    exact h (List.cons.inj hs).1

lemma afterStar_suffix (s : Text) : afterStar s <:+ s := by
  unfold afterStar
  split
  · split
    · exact List.suffix_append [_, _] _
    · exact List.suffix_cons _ _
  · exact List.nil_suffix
  · exact List.suffix_rfl

lemma mem_of_mem_lineContent {c : Char} {l : Text} (h : c ∈ lineContent l) : c ∈ l :=
  mem_of_mem_trimStart ((afterStar_suffix _).subset (mem_of_mem_trimEnd h))

lemma trimEnd_afterStar_append {b : Text} (hb : isAllBlank b) (s : Text) :
    trimEnd (afterStar (s ++ b)) = trimEnd (afterStar s) := by
  cases s with
  | nil =>
    cases b with
    | nil => rfl
    | cons c b =>
      have hc : c ≠ '*' := by
        rintro rfl
        exact notMem_of_isAllBlank (by decide) hb List.mem_cons_self
      rw [List.nil_append, afterStar_of_ne hc]
      exact trimEnd_eq_nil_iff.mpr hb
  | cons c s =>
    by_cases hc : c = '*'
    · subst hc
      cases s with
      | nil =>
        cases b with
        | nil => rfl
        | cons d b =>
          have hd := isAllBlank_iff.mp hb d (by simp)
          rw [List.cons_append, List.nil_append, afterStar, if_pos hd]
          refine trimEnd_eq_nil_iff.mpr (isAllBlank_iff.mpr fun e he => ?_)
          exact isAllBlank_iff.mp hb e (by simp [he])
      | cons d s =>
        rw [List.cons_append, List.cons_append, afterStar, afterStar]
        by_cases hd : Text.isBlank d
        · rw [if_pos hd, if_pos hd, trimEnd_append_of_blank hb]
        · rw [if_neg hd, if_neg hd, ← List.cons_append, trimEnd_append_of_blank hb]
    · rw [List.cons_append, afterStar_of_ne hc, afterStar_of_ne hc, ← List.cons_append,
        trimEnd_append_of_blank hb]

/-- White space at the end of a line is not content. -/
lemma lineContent_trimEnd (l : Text) : lineContent (trimEnd l) = lineContent l := by
  obtain ⟨b, hb, hl⟩ := exists_trimEnd_append_blank (trimStart l)
  rw [lineContent_eq, lineContent_eq, trimStart_trimEnd, ← trimEnd_afterStar_append hb, ← hl]

lemma lead_nil (indent : Text) : lead (indent ++ "* ") [] = indent ++ "*" := by
  have hb := trimEnd_append_of_blank (b := " ") (by decide) (indent ++ ['*'])
  rw [List.append_assoc, trimEnd_concat (by decide)] at hb
  exact hb

lemma lead_cons (indent : Text) (c : Char) (r : Text) :
    lead (indent ++ "* ") (c :: r) = indent ++ '*' :: ' ' :: c :: r := by
  rw [lead, List.isEmpty_cons, if_neg (by decide), List.append_assoc]
  rfl

/-- A content line gives its content back, up to white space at the end. -/
lemma lineContent_lead {indent : Text} (hi : isAllBlank indent) (content : Text) :
    lineContent (lead (indent ++ "* ") content) = trimEnd content := by
  rw [lineContent_eq]
  cases content with
  | nil =>
    rw [lead_nil, trimStart_append_of_blank hi]
    rfl
  | cons c r =>
    rw [lead_cons, trimStart_append_of_blank hi]
    rfl

lemma isLine_lead {indent : Text} (hn : '\n' ∉ indent) {content : Text}
    (hc : IsLine content) : IsLine (lead (indent ++ "* ") content) := by
  cases content with
  | nil =>
    rw [lead_nil]
    exact isLine_of_trimEnd_eq (by simp [hn]) (trimEnd_concat (by decide) _)
  | cons c r =>
    have hs : '\n' ∉ indent ++ ['*', ' '] := by simp [hn]
    rw [lead_cons]
    simpa using hc.append hs (by simp)

lemma trimEnd_lead (indent : Text) {content : Text} (h : trimEnd content = content) :
    trimEnd (lead (indent ++ "* ") content) = lead (indent ++ "* ") content := by
  cases content with
  | nil =>
    rw [lead_nil]
    exact trimEnd_concat (by decide) _
  | cons c r =>
    have := trimEnd_append_of_trimEnd_eq h (by simp) (indent ++ ['*', ' '])
    rw [lead_cons]
    simpa using this

/-! A whole comment. -/

lemma solid_openMark : Solid "/**" :=
  ⟨⟨'/', ['*', '*'], rfl, by decide⟩, ['/', '*'], '*', rfl, by decide⟩

lemma isLine_openMark : IsLine "/**" := isLine_of_trimEnd_eq (by decide) (by decide)

lemma solid_closeMark : Solid "*/" := ⟨⟨'*', ['/'], rfl, by decide⟩, ['*'], '/', rfl, by decide⟩

lemma solid_between_marks (m : Text) : Solid ("/**" ++ m ++ "*/") :=
  solid_openMark.between m solid_closeMark

lemma startsWith_between_marks (m : Text) : startsWith "/**" ("/**" ++ m ++ "*/") :=
  startsWith_iff.mpr ⟨m ++ "*/", by simp⟩

lemma isDocComment_between_marks (m : Text) : isDocComment ("/**" ++ m ++ "*/") = true := by
  have he : endsWith "*/" ("/**" ++ m ++ "*/") = true := endsWith_iff.mpr ⟨"/**" ++ m, rfl⟩
  rw [isDocComment, startsWith_between_marks m, he]
  simp

lemma isDocComment_trim_between_marks (m : Text) : isDocComment (trim ("/**" ++ m ++ "*/")) :=
  (solid_between_marks m).trim_eq.symm ▸ isDocComment_between_marks m

lemma assemble_eq_joinLines (header : Text) (lines : List Text) (footer lineEnd : Text) :
    assemble header lines footer lineEnd = joinLines lineEnd header (lines ++ [footer]) := rfl

lemma assemble_between_marks (lines : List Text) (indent lineEnd : Text) :
    ∃ m, assemble "/**" lines (indent ++ "*/") lineEnd = "/**" ++ m ++ "*/" :=
  ⟨lines.flatMap (lineEnd ++ ·) ++ (lineEnd ++ indent), by simp [assemble]⟩

lemma read_of_sourceLines {s first : Text} {rest : List Text} (hd : isDocComment (trim s))
    (hl : sourceLines (trimEnd s) = first :: rest) (hne : rest ≠ []) :
    read s = readBlock first rest.dropLast (rest.getLast hne) (lineEndOf s) := by
  obtain ⟨second, rest, rfl⟩ := List.exists_cons_of_ne_nil hne
  rw [read, if_pos hd, hl]

lemma readBlock_usual {f : Frame} (hf : f.IsUsual) (lines : List Text) :
    readBlock "/**" lines (f.indent ++ "*/") f.lineEnd =
      ofLines f.expanded (lines.map contentLine) := by
  have hfoot : trimEnd (f.indent ++ "*/") = f.indent ++ "*/" := solid_closeMark.trimEnd_append _
  have hmark : before? "*/" (f.indent ++ "*/") = some f.indent := before?_eq_some_iff.mpr rfl
  have hopen : after? "/**" (trimStart "/**") = some [] := by decide
  have hbare : isAllBlank [] = true := rfl
  have hindent : f.indent.takeWhile Text.isBlank = f.indent :=
    List.takeWhile_eq_self_iff.mpr (isAllBlank_iff.mp hf.blank)
  simp only [readBlock, hfoot, hmark, hopen, hbare, solid_openMark.trimEnd_eq, Option.getD_some,
    hindent, hf.blank, if_true, List.append_nil, List.nil_append, Frame.expanded]

/-- Reading finds the frame and the lines of a comment that was put together from them. -/
theorem read_assemble {f : Frame} (hf : f.IsUsual) {lines : List Text}
    (hl : ∀ l ∈ lines, IsLine l) :
    read (assemble "/**" lines (f.indent ++ "*/") f.lineEnd) =
      ofLines f.expanded (lines.map contentLine) := by
  obtain ⟨m, hm⟩ := assemble_between_marks lines f.indent f.lineEnd
  have hsolid := solid_between_marks m
  have hdoc := isDocComment_trim_between_marks m
  rw [← hm] at hsolid hdoc
  have hfoot : IsLine (f.indent ++ "*/") :=
    isLine_of_trimEnd_eq (by simp [hf.noFeed]) (solid_closeMark.trimEnd_append _)
  have hrest : ∀ l ∈ lines ++ [f.indent ++ "*/"], IsLine l := by
    intro l h
    rcases List.mem_append.mp h with h | h
    · exact hl l h
    · exact List.mem_singleton.mp h ▸ hfoot
  have hlines := sourceLines_joinLines hf.lineEnd isLine_openMark hrest
  have hend := lineEndOf_joinLines hf.lineEnd isLine_openMark hrest (by simp)
  rw [← assemble_eq_joinLines] at hlines hend
  rw [← hsolid.trimEnd_eq] at hlines
  rw [read_of_sourceLines hdoc hlines (by simp), hend,
    List.dropLast_concat, List.getLast_concat, readBlock_usual hf]

lemma sourceLines_of_notMem {s : Text} (h : '\n' ∉ s) : ∃ l, sourceLines s = [l] :=
  ⟨_, by rw [sourceLines, splitOn_of_notMem h, List.map_singleton]⟩

lemma read_of_oneLine {s : Text} (hd : isDocComment (trim s)) (hn : '\n' ∉ trimEnd s) :
    read s = readInline (trim s) := by
  obtain ⟨l, hl⟩ := sourceLines_of_notMem hn
  rw [read, if_pos hd, hl]

lemma take_drop_between_marks (m : Text) :
    (("/**" ++ m ++ "*/" : Text).drop 3).take (("/**" ++ m ++ "*/" : Text).length - 5) = m := by
  have hl : ("/**" ++ m ++ "*/" : Text).length - 5 = m.length := by simp
  rw [hl, List.append_assoc]
  exact List.take_left

lemma readInline_between_marks (m : Text) : readInline ("/**" ++ m ++ "*/") =
    ofLines .inline (if (trim m).isEmpty then [] else [⟨.read (trim m), trim m⟩]) := by
  rw [readInline, take_drop_between_marks]

/-- Reading finds the content of a comment of one line. -/
theorem read_oneLine {content : Text} (hn : '\n' ∉ content) (hne : trim content ≠ []) :
    read ("/** " ++ content ++ " */") =
      ofLines .inline [⟨.read (trim content), trim content⟩] := by
  have hs : "/** " ++ content ++ " */" = "/**" ++ (" " ++ content ++ " ") ++ "*/" := by simp
  have hsolid := solid_between_marks (" " ++ content ++ " ")
  have hdoc := isDocComment_trim_between_marks (" " ++ content ++ " ")
  rw [hs, read_of_oneLine hdoc (by rw [hsolid.trimEnd_eq]; simp [hn]), hsolid.trim_eq,
    readInline_between_marks, trim_between_blanks (by decide) (by decide)]
  simp [hne]

/-! The lines of a comment in its marks. -/

def withoutReturn (l : Text) : Text := (before? "\r" l).getD l

lemma withoutReturn_of_isLine {l : Text} (h : IsLine l) : withoutReturn l = l := by
  rw [withoutReturn, before?_return_of_isLine h, Option.getD_none]

lemma withoutReturn_cases (l : Text) :
    withoutReturn l = l ∨ l = withoutReturn l ++ ['\r'] := by
  rw [withoutReturn]
  cases h : before? "\r" l with
  | none => exact .inl rfl
  | some r => exact .inr (before?_eq_some_iff.mp h).symm

lemma notMem_withoutReturn {c : Char} {l : Text} (h : c ∉ l) : c ∉ withoutReturn l := by
  rcases withoutReturn_cases l with hl | hl
  · rwa [hl]
  · intro hc
    rw [hl] at h
    exact h (List.mem_append_left _ hc)

lemma withoutReturn_concat (l : Text) : withoutReturn (l ++ ['\r']) = l := by
  have hb : before? "\r" (l ++ ['\r']) = some l := before?_eq_some_iff.mpr rfl
  rw [withoutReturn, hb, Option.getD_some]

lemma withoutReturn_openMark (l : Text) : withoutReturn ("/**" ++ l) = "/**" ++ withoutReturn l := by
  rcases withoutReturn_cases l with h | h
  · rcases withoutReturn_cases ("/**" ++ l) with hmark | hmark
    · rw [hmark, h]
    · rcases List.eq_nil_or_concat' l with rfl | ⟨r, c, rfl⟩
      · exact absurd (congrArg List.getLast? hmark) (by simp)
      · rw [← List.append_assoc] at hmark
        obtain ⟨-, hc⟩ := List.append_inj' hmark rfl
        rw [(List.cons.inj hc).1, withoutReturn_concat] at h
        exact absurd (congrArg List.length h) (by simp)
  · conv_lhs => rw [h, ← List.append_assoc, withoutReturn_concat]

lemma trimEnd_withoutReturn (l : Text) : trimEnd (withoutReturn l) = trimEnd l := by
  rcases withoutReturn_cases l with h | h
  · rw [h]
  · conv_rhs => rw [h, trimEnd_append_of_blank (by decide)]

lemma sourceLines_append_cons {l : Text} (h : '\n' ∉ l) (t : Text) :
    sourceLines (l ++ '\n' :: t) = withoutReturn l :: sourceLines t := by
  rw [sourceLines, splitOn_append_cons h]
  rfl

lemma withoutReturn_isPrefix (l : Text) : withoutReturn l <+: l := by
  rcases withoutReturn_cases l with h | h
  · exact ⟨[], by rw [h, List.append_nil]⟩
  · exact ⟨['\r'], h.symm⟩

/-- The lines of a text in front of the closing mark, and the one that the mark ends. What the text
begins with behind white space, one of them begins with behind blank ones. -/
structure IsCut (m : Text) (middle : List Text) (before : Text) : Prop where
  lines : sourceLines (m ++ "*/") = middle ++ [before ++ "*/"]
  noFeed : ∀ l ∈ middle ++ [before], '\n' ∉ l
  within : ∀ l ∈ middle ++ [before], l <:+: m
  opens : startsWith "/**" (trimStart m) → ∃ blanks l rest, middle ++ [before] = blanks ++ l :: rest ∧
    (∀ b ∈ blanks, isAllBlank b) ∧ startsWith "/**" (trimStart l)

lemma isCut_of_notMem {m : Text} (hm : '\n' ∉ m) : IsCut m [] m := by
  have hline : IsLine (m ++ "*/") :=
    isLine_of_trimEnd_eq (by simp [hm]) (solid_closeMark.trimEnd_append m)
  refine ⟨?_, by simpa, by simp, fun h => ⟨[], m, [], rfl, nofun, h⟩⟩
  rw [sourceLines, splitOn_of_notMem hline.noFeed]
  exact congrArg (fun l => [l]) (withoutReturn_of_isLine hline)

/-- One more line in front. -/
lemma IsCut.cons {l t : Text} {middle : List Text} {before : Text} (h : IsCut t middle before)
    (hl : '\n' ∉ l) : IsCut (l ++ '\n' :: t) (withoutReturn l :: middle) before := by
  refine ⟨?_, ?_, ?_, fun hopen => ?_⟩
  · rw [List.append_assoc, List.cons_append, sourceLines_append_cons hl, h.lines, List.cons_append]
  · rw [List.cons_append, List.forall_mem_cons]
    exact ⟨notMem_withoutReturn hl, h.noFeed⟩
  · rw [List.cons_append, List.forall_mem_cons]
    have hprefix : l <+: l ++ '\n' :: t := List.prefix_append _ _
    have hsuffix : t <:+ l ++ '\n' :: t := ⟨l ++ ['\n'], by simp⟩
    exact ⟨((withoutReturn_isPrefix l).trans hprefix).isInfix,
      fun l' hl' => (h.within l' hl').trans hsuffix.isInfix⟩
  · by_cases hb : isAllBlank l
    · -- The text begins on a later line.
      have hblank : isAllBlank (l ++ ['\n']) := by
        simpa [isAllBlank] using ⟨by simpa [isAllBlank] using hb, by decide⟩
      have hrest : trimStart (l ++ '\n' :: t) = trimStart t := by
        simpa using trimStart_append_of_blank hblank t
      obtain ⟨blanks, l', rest, hcut, hblanks, hl'⟩ := h.opens (hrest ▸ hopen)
      refine ⟨withoutReturn l :: blanks, l', rest, by simp [hcut], ?_, hl'⟩
      rw [List.forall_mem_cons]
      refine ⟨isAllBlank_iff.mpr fun c hc => ?_, hblanks⟩
      exact isAllBlank_iff.mp hb c ((withoutReturn_isPrefix l).subset hc)
    · have hline := startsWith_trimStart_of_append (by decide) hb hopen
      refine ⟨[], withoutReturn l, middle ++ [before], rfl, List.forall_mem_nil _, ?_⟩
      rcases withoutReturn_cases l with hsame | hreturn
      · rwa [hsame]
      · rw [hreturn] at hline
        refine startsWith_trimStart_of_append (by decide) (fun hb' => hb ?_) hline
        rw [hreturn]
        simpa [isAllBlank] using ⟨by simpa [isAllBlank] using hb', by decide⟩

/-- By induction over the lines, the first one at a time. -/
lemma exists_isCut (m : Text) : ∃ middle before, IsCut m middle before := by
  induction hlen : m.length using Nat.strong_induction_on generalizing m with
  | _ n ih =>
    by_cases hm : '\n' ∈ m
    · obtain ⟨l, t, rfl, hl⟩ := List.eq_append_cons_of_mem hm
      obtain ⟨middle, before, hcut⟩ := ih t.length (by simp at hlen; omega) t rfl
      exact ⟨_, _, hcut.cons hl⟩
    · exact ⟨_, _, isCut_of_notMem hm⟩

end DocTree
end DocTypes
