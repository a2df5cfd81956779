import DocTypes.Proofs.Doc.TagLines
import DocTypes.Proofs.Doc.VarInfo

/-!
A tag whose text has line breaks in it. It is printed as it is, and read from the first of its lines;
the other lines hold no tag.
-/
namespace DocTypes
open Text

namespace Text

/-- Only the first piece of a text between others has what is in none of the other pieces. -/
lemma eq_front_of_mem {mark c : Char} {a w b front l : Text} {rest : List Text} (ha : mark ∉ a)
    (hb : mark ∉ b) (hcb : c ∉ b) (hw : splitOn mark w = front :: rest) (hrest : ∀ p ∈ rest, c ∉ p)
    (hl : l ∈ splitOn mark (a ++ (w ++ b))) (hc : c ∈ l) :
    l = a ++ front ∨ l = a ++ (front ++ b) := by
  obtain ⟨first, others, hfirst, hprepend⟩ := exists_splitOn_prepend ha (w ++ b)
  obtain ⟨init, last, hinit, happend⟩ := exists_splitOn_append hb w
  rw [hprepend, List.mem_cons] at hl
  rw [happend] at hfirst
  rw [hw] at hinit
  cases init with
  | nil =>
    obtain ⟨rfl, rfl⟩ := List.cons.inj hinit
    obtain ⟨rfl, rfl⟩ := List.cons.inj hfirst
    exact hl.elim .inr (absurd · List.not_mem_nil)
  | cons p init =>
    rw [List.cons_append] at hinit hfirst
    obtain ⟨rfl, rfl⟩ := List.cons.inj hinit
    obtain ⟨rfl, rfl⟩ := List.cons.inj hfirst
    rw [List.forall_mem_append, List.forall_mem_singleton] at hrest
    refine hl.elim .inl fun hl => ?_
    rcases List.mem_append.mp hl with hl | hl
    · exact absurd hc (hrest.1 l hl)
    · rw [List.mem_singleton.mp hl, List.mem_append] at hc
      exact hc.elim (absurd · hrest.2) (absurd · hcb)

end Text

/-- Looking names up does not change what is written. -/
lemma TypeExpr.map_written_lookedUp (scope : Option NameScope) (t : TypeExpr Text) :
    (t.map (TypeRef.resolveIn scope ∘ .ofWritten)).map TypeRef.written = t := by
  have hid : TypeRef.written ∘ (TypeRef.resolveIn scope ∘ .ofWritten) = id :=
    funext fun n => TypeRef.written_resolveIn scope _
  rw [map_map, hid, map_id]

namespace DocTree

/-! Tags and the lines they are read from. -/

lemma lineContent_append_of_blank {b : Text} (hb : isAllBlank b) (l : Text) :
    lineContent (l ++ b) = lineContent l := by
  rw [← lineContent_trimEnd, trimEnd_append_of_blank hb, lineContent_trimEnd]

lemma lineContent_withoutReturn (l : Text) : lineContent (withoutReturn l) = lineContent l := by
  rw [← lineContent_trimEnd, trimEnd_withoutReturn, lineContent_trimEnd]

/-- A text that starts with `@` is the content of its line without an asterisk in front. -/
lemma lineContent_blank_append {a r : Text} (ha : isAllBlank a) :
    lineContent (a ++ '@' :: r) = trimEnd ('@' :: r) := by
  rw [lineContent_eq, trimStart_append_of_blank ha, trimStart_cons (by decide),
    afterStar_of_ne (by decide)]

/-- What is read as a tag behind the opening mark is read as one on a line of its own, too. -/
lemma lineContent_of_read_trim {l : Text} {u : Tag Text} (h : Content.read (trim l) = .tag u) :
    lineContent l = trim l := by
  obtain ⟨r, hr⟩ := Content.exists_cons_of_read_tag h
  obtain ⟨a, b, ha, hb, hl⟩ := exists_blanks_trim l
  conv_lhs => rw [hl]
  rw [lineContent_append_of_blank hb, hr, lineContent_blank_append ha, ← hr, trimEnd_trim]

lemma mem_of_read_lineContent {l : Text} {u : Tag Text}
    (h : Content.read (lineContent l) = .tag u) : '@' ∈ l := by
  obtain ⟨r, hr⟩ := Content.exists_cons_of_read_tag h
  exact mem_of_mem_lineContent (by simp [hr])

/-- Every tag that is read stands on a line between the marks. -/
lemma exists_line_of_tag {m : Text} {u : Tag Text}
    (hu : .tag u ∈ (read ("/**" ++ m ++ "*/")).entries.map Entry.written) :
    ∃ l ∈ splitOn '\n' m, Content.read (lineContent l) = .tag u := by
  have hsolid := solid_between_marks m
  have hd := isDocComment_trim_between_marks m
  obtain ⟨hn, hread⟩ | ⟨first, middle, last, hpieces, hread⟩ := read_cases hd
  · rw [hsolid.trimEnd_eq] at hn
    rw [hread, hsolid.trim_eq, readInline_between_marks, written_ofLines] at hu
    have htrim : Content.read (trim m) = .tag u := by
      split at hu
      · cases hu
      · exact (List.mem_singleton.mp hu).symm
    rw [splitOn_of_notMem fun h => hn (by simp [h])]
    exact ⟨m, List.mem_singleton_self m, (lineContent_of_read_trim htrim).symm ▸ htrim⟩
  · obtain ⟨opening, rfl, hlines⟩ := exists_bodyLines (startsWith_between_marks m) hd hpieces
    rw [bodyLines_between_marks] at hlines
    rw [hlines]
    rw [hread, written_ofLines, blockLines, withoutReturn_openMark, openingOf_openMark] at hu
    simp only [List.map_append, List.map_map, List.mem_append] at hu
    rcases hu with (hu | hu) | hu
    · -- The content behind the opening mark.
      have htrim : Content.read (trim opening) = .tag u := by
        split at hu
        · cases hu
        · have hsame : trim (withoutReturn opening) = trim opening := by
            rw [trim, ← trimStart_trimEnd, trimEnd_withoutReturn, trimStart_trimEnd, trim]
          exact hsame ▸ (List.mem_singleton.mp hu).symm
      exact ⟨opening, List.mem_cons_self, (lineContent_of_read_trim htrim).symm ▸ htrim⟩
    · obtain ⟨l, hl, hcontent⟩ := List.mem_map.mp hu
      refine ⟨l, by simp [hl], ?_⟩
      rw [← lineContent_withoutReturn]
      exact hcontent
    · refine ⟨last, by simp, ?_⟩
      split at hu
      · cases hu
      · exact (List.mem_singleton.mp hu).symm

/-! Putting a tag. -/

variable {d : DocTree} {t : Tag Text}

/-- A line of the entries, as far as it holds a tag, is that of an entry or stands in the text of the
new tag. -/
lemma exists_line_of_new {e : Entry} {es fs : List Entry} (hf : d.frame.IsUsual)
    (hd : d.entries = es ++ e :: fs) (hk : ∀ e ∈ es ++ fs, e.IsKept d.frame) {u : Tag Text}
    {l : Text} (hl : l ∈ splitOn '\n' (joinLines d.frame.lineEnd []
      (d.entries.map d.frame.printLine ++ [d.frame.indent])))
    (hu : Content.read (lineContent l) = .tag u) :
    (∃ e ∈ es ++ fs, e.written = .tag u) ∨
      ∃ p ∈ splitOn '\n' (d.frame.printLine e), Content.read (lineContent p) = .tag u := by
  have hblank : ∀ b : Text, isAllBlank b → '\n' ∉ b → ∀ p ∈ splitOn '\n' b,
      Content.read (lineContent p) ≠ .tag u := by
    intro b hb hn p hp htag
    rw [splitOn_of_notMem hn, List.mem_singleton] at hp
    exact notMem_of_isAllBlank (by decide) hb (hp ▸ mem_of_read_lineContent htag)
  have hmap := List.mem_map_of_mem (f := lineContent) hl
  rw [map_splitOn_joinLines (lineContent_append_of_blank (by decide)) hf.lineEnd,
    List.mem_flatMap] at hmap
  obtain ⟨line, hline, hp⟩ := hmap
  obtain ⟨p, hp, hpl⟩ := List.mem_map.mp hp
  rw [← hpl] at hu
  have hkept : ∀ e ∈ es ++ fs, line = d.frame.printLine e → e.written = .tag u := by
    rintro e he rfl
    obtain ⟨hline, hread⟩ := Frame.read_printLine_of_isKept (hk e he)
    rw [splitOn_of_notMem hline.noFeed, List.mem_singleton] at hp
    rw [← hread, ← hp, hu]
  rw [hd] at hline
  simp only [List.mem_cons, List.map_append, List.map_cons, List.mem_append, List.mem_map,
    List.not_mem_nil, or_false] at hline
  rcases hline with rfl | ((⟨e', he', rfl⟩ | rfl | ⟨e', he', rfl⟩) | rfl)
  · exact absurd hu (hblank [] rfl List.not_mem_nil p hp)
  · exact .inl ⟨e', List.mem_append_left _ he', hkept e' (List.mem_append_left _ he') rfl⟩
  · exact .inr ⟨p, hp, hu⟩
  · exact .inl ⟨e', List.mem_append_right _ he', hkept e' (List.mem_append_right _ he') rfl⟩
  · exact absurd hu (hblank _ hf.blank hf.noFeed p hp)

/-- What is read under the name of the tag is read from the front of its text. -/
theorem read_front_of_tag (hf : d.frame.IsUsual) (hk : ∀ e ∈ d.entries, e.IsKept d.frame)
    {front : Text} {rest : List Text} (hfront : splitOn '\n' t.render = front :: rest)
    (hstart : ∃ r, front = '@' :: r) (hrest : ∀ p ∈ rest, '@' ∉ p) {source : Text} {u : Tag Text}
    (hu : .tag u ∈ (read ((putTag t d).print source)).entries.map Entry.written)
    (hn : u.name = t.name) : Content.read (trimEnd front) = .tag u := by
  obtain ⟨front, rfl⟩ := hstart
  obtain ⟨hframe, es, fs, hput, hothers⟩ := exists_entries_putTag t d
  have hunch := isUnchanged_of_new hput
  have hnb := isBlank_of_new hput
  have hkept := isKept_of_others hothers hk
  -- Whatever surrounds the text on its lines is white space and an asterisk.
  have hlines : ∀ (a b : Text), '\n' ∉ a → isAllBlank b → '\n' ∉ b →
      (∀ r, lineContent (a ++ '@' :: r) = trimEnd ('@' :: r)) →
      ∀ l ∈ splitOn '\n' (a ++ (t.render ++ b)), Content.read (lineContent l) = .tag u →
        Content.read (trimEnd ('@' :: front)) = .tag u := by
    intro a b ha hb hnb hcontent l hl hread
    have hat : '@' ∉ b := notMem_of_isAllBlank (by decide) hb
    rcases eq_front_of_mem ha hnb hat hfront hrest hl (mem_of_read_lineContent hread) with rfl | rfl
    · rwa [hcontent] at hread
    · rwa [List.cons_append, hcontent, ← List.cons_append, trimEnd_append_of_blank hb] at hread
  obtain hs | ⟨hi, e, he⟩ := (putTag t d).isSpread_or_single
  · rw [print_between_marks (hframe ▸ hf) hunch hnb hs] at hu
    obtain ⟨l, hl, hread⟩ := exists_line_of_tag hu
    rcases exists_line_of_new (hframe ▸ hf) hput (hframe ▸ fun e he => (hkept e he).1) hl hread with
      ⟨e, he, hwritten⟩ | ⟨p, hp, hread⟩
    · have hnamed := (hkept e he).2
      simp [Entry.isTagNamed_eq, hwritten, Content.tag?, hn] at hnamed
    · have hline : (putTag t d).frame.printLine (.new (.tag (t.map .ofWritten))) =
          d.frame.indent ++ ("* " : Text) ++ (t.render ++ []) := by
        have hne : t.render ≠ [] := fun hnil => by simp [hnil, splitOn] at hfront
        rw [hframe, Frame.printLine_of_touched _ rfl, Entry.written_new_tag, List.append_nil]
        exact if_neg (by simpa [Content.render] using hne)
      refine hlines (d.frame.indent ++ ("* " : Text)) [] (by simp [hf.noFeed]) rfl List.not_mem_nil
        (fun r => ?_) p (hline ▸ hp) hread
      have hlead := lineContent_lead hf.blank ('@' :: r)
      rwa [lead, List.isEmpty_cons, if_neg (by decide)] at hlead
  · have hmarks : ("/** " ++ t.render ++ " */" : Text) =
        "/**" ++ (" " ++ (t.render ++ " ")) ++ "*/" := by simp
    rw [print_new_single hput hi he, hmarks] at hu
    obtain ⟨l, hl, hread⟩ := exists_line_of_tag hu
    exact hlines " " " " (by decide) (by decide) (by decide)
      (fun r => lineContent_blank_append (by decide)) l hl hread

end DocTree

namespace DocSlot
open DocTree

variable {s : DocSlot} {t : Tag Text}

/-- The types that the tag has in the comment are read from the first line of its value. -/
theorem exists_front_of_typed (hs : s.IsTidy)
    (hname : Content.readTagName t.name = some (t.name, [])) (hbears : Tag.bearsType t.name)
    (hat : '@' ∉ t.value.render) {v : TypedValue TypeRef}
    (hv : .tag ⟨t.name, .typed v⟩ ∈ (s.setTag t).1.contents) :
    ∃ front rest, splitOn '\n' t.value.render = front :: rest ∧
      (TypedValue.read front).typed?.map (·.type) = some (v.type.map TypeRef.written) := by
  obtain ⟨b, hb, hbfeed, hrender, hends⟩ := t.exists_render_eq
  have hfeed : '\n' ∉ t.name ++ b := by
    rw [List.mem_append]
    exact fun h => h.elim (fun hc => absurd (Content.isBlank_of_readTagName hname _ hc) (by decide))
      hbfeed
  obtain ⟨front, rest, hfront, hpieces⟩ := exists_splitOn_prepend hfeed t.value.render
  refine ⟨front, rest, hfront, ?_⟩
  have hstart : ∃ r, t.name ++ b ++ front = '@' :: r := by
    obtain ⟨mark, c, r, hmark, -, -, hn, -⟩ := Content.readTagName_cases hname
    rw [hn]
    rcases hmark with rfl | rfl
    · exact ⟨_, rfl⟩
    · exact ⟨_, rfl⟩
  have hrest : ∀ p ∈ rest, '@' ∉ p := fun p hp hc =>
    (mem_of_mem_splitOn (hfront ▸ List.mem_cons_of_mem _ hp) hc).elim hat (absurd · (by decide))
  have hends' : endsTagName (b ++ front) := by
    rw [← join_splitOn '\n' t.value.render, hfront, join_cons, ← List.append_assoc] at hends
    cases hbf : b ++ front with
    | nil => rfl
    | cons d r => exact (hbf ▸ hends : endsTagName (d :: r ++ _))
  obtain ⟨husual, hkept⟩ := isKept_tree hs
  rw [setTag_eq_print hs, contents_eq, tree_of_some rfl, contents_resolveIn_read] at hv
  obtain ⟨c, hc, hmap⟩ := List.mem_map.mp hv
  obtain ⟨name, w, rfl, rfl⟩ := Content.exists_of_map_typed hmap rfl
  obtain rfl : name = t.name := congrArg Tag.name (Content.tag.inj hmap)
  rw [← List.append_assoc] at hrender
  have hread := read_front_of_tag husual hkept (hrender ▸ hpieces) hstart hrest hc rfl
  rw [List.append_assoc, Content.read_name_append hname hbears hends',
    TypedValue.read_blank_append hb] at hread
  have hvalue : TypedValue.read front = .typed w := by injection hread with h; injection h
  rw [hvalue]
  exact congrArg some (TypeExpr.map_written_lookedUp s.scope w.type).symm

end DocSlot
end DocTypes
