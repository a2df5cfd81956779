import DocTypes.Proofs.Doc.Lossless
import DocTypes.Proofs.Doc.Opening
import DocTypes.Proofs.Doc.Placement
import DocTypes.Proofs.Doc.Reports

/-!
Removing lines. Whatever surrounds the content of a comment, the lines that are left are printed as they
were and read as what they held, so that several removals are one removal of all that is unwanted.
-/
namespace DocTypes
open Text

/-- Frames of several lines that print the same lines alike. -/
structure Frame.IsAlike (f f' : Frame) : Prop where
  header : f.header = f'.header
  lineEnd : f.lineEnd = f'.lineEnd
  footer : f.footer = f'.footer
  ne_inline : f ≠ .inline ∧ f' ≠ .inline

namespace DocTree

variable {d d' : DocTree} {p q : Content TypeRef → Bool}

/-! Fewer entries. -/

/-- Without the lines of a kind. -/
def without (unwanted : Content TypeRef → Bool) (d : DocTree) : DocTree :=
  { d with entries := d.entries.filter fun e => !unwanted e.content }

lemma without_without (p q : Content TypeRef → Bool) (d : DocTree) :
    (d.without p).without q = d.without fun c => p c || q c := by
  simp [without, List.filter_filter, Bool.and_comm]

lemma without_eq_self_iff : d.without p = d ↔ ∀ e ∈ d.entries, p e.content = false := by
  have hentries : d.without p = d ↔ d.entries.filter (fun e => !p e.content) = d.entries :=
    ⟨congrArg entries, fun h => by rw [without, h]⟩
  rw [hentries, List.filter_eq_self]
  simp

/-- Removing entries leaves a tree unchanged only if there are none to remove. -/
lemma isUnchanged_without_iff (h : d.isUnchanged) : (d.without p).isUnchanged ↔ d.without p = d := by
  refine ⟨fun hu => ?_, fun heq => by rwa [heq]⟩
  simp only [isUnchanged, Bool.and_eq_true, beq_iff_eq] at h hu
  have hsame : d.entries.filter (fun e => !p e.content) = d.entries :=
    List.filter_sublist.eq_of_length (hu.1.trans h.1.symm)
  rw [without, hsame]

/-- What is left after that is no more. -/
lemma isUnchanged_without_of_touched (h : (d.without p).isUnchanged = false) (hd : d.isUnchanged) :
    (d.without fun c => p c || q c).isUnchanged = false := by
  rw [Bool.eq_false_iff] at h ⊢
  rw [ne_eq, isUnchanged_without_iff hd, without_eq_self_iff] at h ⊢
  exact fun hall => h fun e he => (Bool.or_eq_false_iff.mp (hall e he)).1

/-! Each entry with its line. -/

/-- What the entries hold, next to the lines on which they are printed. -/
def lined (d : DocTree) : List (Content TypeRef × Text) :=
  d.entries.map fun e => (e.content, d.frame.printLine e)

lemma map_fst_lined (d : DocTree) : d.lined.map (·.1) = d.entries.map (·.content) := by
  rw [lined, List.map_map]
  rfl

lemma map_snd_lined (d : DocTree) : d.lined.map (·.2) = d.entries.map d.frame.printLine := by
  rw [lined, List.map_map]
  rfl

lemma lined_without (p : Content TypeRef → Bool) (d : DocTree) :
    (d.without p).lined = d.lined.filter fun l => !p l.1 := by
  rw [lined, lined, List.filter_map]
  rfl

lemma contents_without (p : Content TypeRef → Bool) (d : DocTree) :
    (d.without p).entries.map (·.content) = (d.entries.map (·.content)).filter (!p ·) := by
  rw [← map_fst_lined, lined_without, ← map_fst_lined, List.filter_map]
  rfl

lemma without_eq_self_iff_of_lined : d.without p = d ↔ ∀ l ∈ d.lined, p l.1 = false := by
  rw [without_eq_self_iff, lined, List.forall_mem_map]

lemma isBlank_of_lined : d.isBlank ↔ ∀ l ∈ d.lined, l.1.isBlank := by
  rw [isBlank, List.all_eq_true, lined, List.forall_mem_map]

/-- Trees that were changed are printed alike if they have the same lines. -/
lemma print_eq_of_lined (hf : d.frame.IsAlike d'.frame) (hl : d.lined = d'.lined)
    (hu : d.isUnchanged = false) (hu' : d'.isUnchanged = false) (source source' : Text) :
    d.print source = d'.print source' := by
  have hblank : d.isBlank = d'.isBlank := by
    rw [Bool.eq_iff_iff, isBlank_of_lined, isBlank_of_lined, hl]
  cases hb : d.isBlank with
  | true =>
    rw [hb] at hblank
    rw [print, print, hu, hu', hb, ← hblank]
    rfl
  | false =>
    rw [print_spread hu hb fun h => absurd h hf.ne_inline.1,
      print_spread hu' (hblank ▸ hb) fun h => absurd h hf.ne_inline.2, hf.header, hf.lineEnd,
      hf.footer, ← map_snd_lined, hl, map_snd_lined]

/-- With the same lines, the same lines are left. -/
lemma print_without_of_lined (hf : d'.frame.IsAlike d.frame) (hl : d'.lined = d.lined)
    (hd' : d'.isUnchanged) (hu : (d.without q).isUnchanged = false) (source : Text) :
    (d'.without q).print (d.print source) = (d.without q).print source := by
  cases hu' : (d'.without q).isUnchanged with
  | true =>
    -- Nothing is unwanted in the one tree nor in the other.
    have hnone := (isUnchanged_without_iff hd').mp hu'
    rw [without_eq_self_iff_of_lined, hl, ← without_eq_self_iff_of_lined] at hnone
    rw [hnone, print, if_pos hu']
  | false =>
    have hframe : (d'.without q).frame.IsAlike (d.without q).frame := hf
    have hlined : (d'.without q).lined = (d.without q).lined := by
      rw [lined_without, lined_without, hl]
    exact print_eq_of_lined hframe hlined hu' hu _ _

/-! Printing the lines that are left, and reading them. -/

/-- Reading finds the frame of any comment of several lines. -/
lemma read_assemble_of_isClear {header b lineEnd : Text} {lines : List Text} (he : IsLineEnd lineEnd)
    (hh : trimEnd header = header ∧ IsLine header) (hbare : isAllBlank (openingOf header))
    (hl : ∀ l ∈ lines, IsLine l) (hb : isAllBlank b ∧ '\n' ∉ b)
    (hd : isDocComment (trim (assemble header lines (b ++ "*/") lineEnd))) :
    read (assemble header lines (b ++ "*/") lineEnd) =
      ofLines (.block ⟨header, lineEnd, b.takeWhile Text.isBlank, some (b ++ "*/")⟩)
        (lines.map contentLine) := by
  have hfoot : IsLine (b ++ "*/") :=
    isLine_of_trimEnd_eq (by simp [hb.2]) (solid_closeMark.trimEnd_append b)
  have hrest : ∀ l ∈ lines ++ [b ++ "*/"], IsLine l := by
    rw [List.forall_mem_append, List.forall_mem_singleton]
    exact ⟨hl, hfoot⟩
  have hend : lineEndOf (assemble header lines (b ++ "*/") lineEnd) = lineEnd :=
    lineEndOf_joinLines he hh.2 hrest (by simp)
  rw [read_of_sourceLines hd (sourceLines_assemble he hh.2 hl hb.2) (by simp), List.dropLast_concat,
    List.getLast_concat, readBlock_closeMark, hend, closedBlock, blockLines]
  simp only [if_pos hbare, if_pos hb.1, hh.1, List.append_nil, List.nil_append]

/-- The first line was read without the white space at its end. -/
lemma trimEnd_header_read {text : Text} (hd : isDocComment (trim text)) :
    trimEnd (read text).frame.header = (read text).frame.header := by
  obtain ⟨-, hread⟩ | ⟨first, middle, last, -, hread⟩ := read_cases hd
  · rw [hread]
    exact solid_openMark.trimEnd_eq
  · have hheader : (read text).frame.header = (closedBlock (withoutReturn first) last
        (lineEndOf text)).header := congrArg (·.frame.header) hread
    rw [hheader, closedBlock]
    split
    · exact trimEnd_trimEnd _
    · exact solid_openMark.trimEnd_eq

/-- Kept entries are read with what they hold and are printed on their lines once more. -/
lemma lined_of_isFrom {g : TypeRef → TypeRef} (hg : ∀ r, (g r).written = r.written) {f : Frame}
    {b : Block} {es es' : List Entry} (hk : ∀ e ∈ es, e.IsKept f)
    (hc : ∀ e ∈ es, e.content = e.written.map (g ∘ .ofWritten))
    (h : List.Forall₂ (IsFrom g) (es.map f.printLine) es') :
    es'.map (fun e => (e.content, (Frame.block b).printLine e)) =
      es.map fun e => (e.content, f.printLine e) := by
  refine map_eq_map_of_isFrom h fun e he e' hfrom => ?_
  have hcontent : e'.content = e.content := by
    rw [hfrom.content, (Frame.read_printLine_of_isKept (hk e he)).2, hc e he]
  rw [hcontent, printLine_of_isFrom hg hfrom, trimEnd_printLine_of_isKept (hk e he)]

section
variable {text : Text} {scope : Option NameScope} (hp : ∀ s, p (.text s) = false)
include hp

/-- Only a doc comment has anything but text. -/
lemma isDocComment_of_without
    (hu : (((read text).resolveIn scope).without p).isUnchanged = false) :
    isDocComment (trim text) := by
  by_contra hd
  have htree : ((read text).resolveIn scope).without p = (read text).resolveIn scope := by
    rw [read_of_not_isDocComment (Bool.eq_false_iff.mpr hd), without_eq_self_iff]
    intro e he
    obtain rfl := List.mem_singleton.mp he
    exact hp text
  rw [htree, isUnchanged_resolveIn scope (isUnchanged_read text)] at hu
  cases hu

omit hp in
/-- Between marks on one line there is nothing else that could be left. -/
lemma frame_ne_inline_of_without (hd : isDocComment (trim text))
    (hu : (((read text).resolveIn scope).without p).isUnchanged = false)
    (hb : (((read text).resolveIn scope).without p).isBlank = false) :
    (read text).frame ≠ .inline := by
  intro hinline
  have hshort : ((read text).resolveIn scope).entries.length ≤ 1 := by
    rw [resolveIn, mapNames, mapContents, List.length_map]
    obtain ⟨-, hread⟩ | ⟨first, middle, last, -, hread⟩ := read_cases hd
    · rw [hread, readInline]
      split <;> simp [ofLines]
    · rw [hread] at hinline
      cases hinline
  have hless : (((read text).resolveIn scope).without p).entries.length <
      ((read text).resolveIn scope).entries.length := by
    refine lt_of_le_of_ne List.filter_sublist.length_le fun hlen => ?_
    have hsame := List.filter_sublist.eq_of_length hlen
    rw [without, hsame, isUnchanged_resolveIn scope (isUnchanged_read text)] at hu
    cases hu
  have hnil : (((read text).resolveIn scope).without p).entries = [] :=
    List.eq_nil_of_length_eq_zero (by omega)
  rw [isBlank, hnil] at hb
  cases hb

/-- The lines that are left are read as what they held, and between the same first and last lines. -/
theorem lined_read_print_without
    (hu : (((read text).resolveIn scope).without p).isUnchanged = false)
    (hb : (((read text).resolveIn scope).without p).isBlank = false) :
    let d := ((read text).resolveIn scope).without p
    let d' := (read (d.print text)).resolveIn scope
    d'.lined = d.lined ∧ d'.frame.IsAlike d.frame := by
  intro d d'
  have hd := isDocComment_of_without hp hu
  have hne : d.frame ≠ .inline := frame_ne_inline_of_without hd hu hb
  have hclear : d.frame.IsClear := isClear_read hd
  have hg := TypeRef.written_resolveIn scope
  have hmem : ∀ e ∈ d.entries, e ∈ ((read text).resolveIn scope).entries := fun e he =>
    (List.mem_filter.mp he).1
  have hkept : ∀ e ∈ d.entries, e.IsKept d.frame := fun e he =>
    DocSlot.isKept_mapNames hg (isKept_read hd) e (hmem e he)
  have hcontent : ∀ e ∈ d.entries, e.content = e.written.map (TypeRef.resolveIn scope ∘ .ofWritten) :=
    fun e he => DocSlot.content_eq_of_mem_tree (s := ⟨some text, scope⟩) (hmem e he)
  have hdoc : isDocComment (trim (d.print text)) := by
    refine isDocComment_print (((isOpened_read hd).mapNames hg).filter fun e _ s hs => ?_) hclear hu hb
      text
    rw [hs, hp, Bool.not_false]
  obtain ⟨hl, b, hblank, hfeed, hfooter, hprint⟩ := exists_print_spread hclear hu hb
    (absurd · hne) (fun e he => .inl (hkept e he)) text
  rw [hprint] at hdoc
  have hheader : trimEnd d.frame.header = d.frame.header := trimEnd_header_read hd
  have hread := read_assemble_of_isClear hclear.lineEnd ⟨hheader, hclear.header⟩ hclear.bare hl
    ⟨hblank, hfeed⟩ hdoc
  rw [← hprint] at hread
  have hfrom := forall₂_isFrom (TypeRef.resolveIn scope)
    (.block ⟨d.frame.header, d.frame.lineEnd, b.takeWhile Text.isBlank, some (b ++ "*/")⟩)
    (d.entries.map d.frame.printLine)
  refine ⟨?_, ?_⟩
  · simp only [d', hread]
    exact lined_of_isFrom hg hkept hcontent hfrom
  · simp only [d', hread]
    exact ⟨rfl, rfl, hfooter.symm, nofun, hne⟩

/-- Reading in between does not matter. -/
theorem print_without_read_print
    (hne : (((read text).resolveIn scope).without p).print text ≠ []) :
    let printed := (((read text).resolveIn scope).without p).print text
    (((read printed).resolveIn scope).without q).print printed =
      ((((read text).resolveIn scope).without p).without q).print text := by
  intro printed
  have htree : ((read text).resolveIn scope).isUnchanged :=
    isUnchanged_resolveIn scope (isUnchanged_read text)
  cases hu : (((read text).resolveIn scope).without p).isUnchanged with
  | true =>
    have hprinted : printed = text := if_pos hu
    rw [(isUnchanged_without_iff htree).mp hu, hprinted]
  | false =>
    have hb : (((read text).resolveIn scope).without p).isBlank = false := by
      rw [Bool.eq_false_iff]
      intro hb
      exact hne (by rw [print, hu, if_neg (by decide), if_pos hb])
    obtain ⟨hlined, halike⟩ := lined_read_print_without hp hu hb
    have hu' := isUnchanged_without_of_touched (q := q) hu htree
    rw [← without_without] at hu'
    exact print_without_of_lined halike hlined
      (isUnchanged_resolveIn scope (isUnchanged_read printed)) hu' text

/-- An empty comment stays empty. -/
lemma print_without_nil : (((read []).resolveIn scope).without p).print [] = [] := by
  cases hu : (((read []).resolveIn scope).without p).isUnchanged with
  | true => exact if_pos hu
  | false => exact absurd (isDocComment_of_without hp hu) (by decide)

/-- Where nothing is printed, nothing is printed of less. -/
lemma print_without_eq_nil (hq : ∀ s, q (.text s) = false)
    (h : (((read text).resolveIn scope).without p).print text = []) :
    ((((read text).resolveIn scope).without p).without q).print text = [] := by
  have htree : ((read text).resolveIn scope).isUnchanged :=
    isUnchanged_resolveIn scope (isUnchanged_read text)
  cases hu : (((read text).resolveIn scope).without p).isUnchanged with
  | true =>
    have hnil : text = [] := by rwa [print, if_pos hu] at h
    subst hnil
    rw [(isUnchanged_without_iff htree).mp hu, print_without_nil hq]
  | false =>
    have he : IsLineEnd (((read text).resolveIn scope).without p).frame.lineEnd :=
      (isClear_read (isDocComment_of_without hp hu)).lineEnd
    have hb : (((read text).resolveIn scope).without p).isBlank := by
      by_contra hb
      exact print_ne_nil he hu (by simpa using hb) h
    have hblank : ((((read text).resolveIn scope).without p).without q).isBlank := by
      rw [isBlank, List.all_eq_true] at hb ⊢
      exact fun e he => hb e (List.mem_filter.mp he).1
    have hu' := isUnchanged_without_of_touched (q := q) hu htree
    rw [← without_without] at hu'
    rw [print, hu', if_neg (by decide), if_pos hblank]

end

end DocTree

namespace DocSlot

variable {s : DocSlot} {p q : Content TypeRef → Bool}

/-- The edit that removes the lines of a kind. -/
def removeLines (unwanted : Content TypeRef → Bool) : DocSlot → DocSlot × Bool :=
  editTree (·.without unwanted)

lemma removeLines_of_none {scope : Option NameScope} :
    (removeLines p ⟨none, scope⟩).1 = ⟨none, scope⟩ := rfl

lemma removeLines_of_some {text : Text} {scope : Option NameScope} :
    let printed := (((DocTree.read text).resolveIn scope).without p).print text
    (removeLines p ⟨some text, scope⟩).1 = ⟨if printed = [] then none else some printed, scope⟩ :=
  fst_writeBack (s := ⟨some text, scope⟩) rfl _

/-- Two removals are one: of what is unwanted by the one or by the other. -/
theorem removeLines_removeLines (hp : ∀ s, p (.text s) = false) (hq : ∀ s, q (.text s) = false)
    (s : DocSlot) :
    ((s.removeLines p).1.removeLines q).1 = (s.removeLines fun c => p c || q c).1 := by
  obtain ⟨_ | text, scope⟩ := s
  · rfl
  rw [removeLines_of_some, removeLines_of_some, ← DocTree.without_without]
  by_cases hne : (((DocTree.read text).resolveIn scope).without p).print text = []
  · rw [if_pos hne, if_pos (DocTree.print_without_eq_nil hp hq hne), removeLines_of_none]
  · rw [if_neg hne, removeLines_of_some, DocTree.print_without_read_print hp hne]

lemma removeLines_self (hp : ∀ s, p (.text s) = false) (s : DocSlot) :
    ((s.removeLines p).1.removeLines p).1 = (s.removeLines p).1 := by
  simp [removeLines_removeLines hp hp]

lemma removeLines_comm (hp : ∀ s, p (.text s) = false) (hq : ∀ s, q (.text s) = false)
    (s : DocSlot) :
    ((s.removeLines p).1.removeLines q).1 = ((s.removeLines q).1.removeLines p).1 := by
  simp only [removeLines_removeLines hp hq, removeLines_removeLines hq hp, Bool.or_comm]

lemma scope_removeLines (p : Content TypeRef → Bool) (s : DocSlot) :
    (s.removeLines p).1.scope = s.scope := (s.isReported_editTree _).scope

/-! What is left. -/

/-- Removing lines leaves the others as they are. Where only blank lines are left the comment is taken
away. -/
lemma contents_removeLines (hp : ∀ s, p (.text s) = false) (hs : s.text ≠ some []) :
    let kept := s.contents.filter (!p ·)
    let s' := (s.removeLines p).1
    (kept = s.contents → s' = s) ∧
    (kept ≠ s.contents → (∀ c ∈ kept, c.isBlank) → s'.text = none) ∧
    ((∃ c ∈ kept, c.isBlank = false) → s'.contents = kept) := by
  intro kept s'
  obtain ⟨_ | text, scope⟩ := s
  · exact ⟨fun _ => rfl, fun hne => absurd rfl hne, fun ⟨c, hc, _⟩ => absurd hc List.not_mem_nil⟩
  have hne : text ≠ [] := by
    rintro rfl
    exact hs rfl
  let d := ((DocTree.read text).resolveIn scope).without p
  have hrun : s' = (writeBack ⟨some text, scope⟩ ⟨d, text, scope⟩).1 := rfl
  have hkept : kept = d.entries.map (·.content) :=
    (DocTree.contents_without p ((DocTree.read text).resolveIn scope)).symm
  have hunchanged : d.isUnchanged ↔ kept = contents ⟨some text, scope⟩ := by
    rw [DocTree.isUnchanged_without_iff (DocTree.isUnchanged_resolveIn scope
      (DocTree.isUnchanged_read text)), DocTree.without_eq_self_iff, List.filter_eq_self, contents_eq,
      List.forall_mem_map, tree_of_some rfl]
    simp
  have hblank : d.isBlank ↔ ∀ c ∈ kept, c.isBlank := by
    rw [hkept, List.forall_mem_map]
    exact List.all_eq_true
  refine ⟨fun h => ?_, fun h hall => ?_, fun ⟨c, hc, hcb⟩ => ?_⟩
  · rw [hrun, writeBack_of_isUnchanged hne (hunchanged.mpr h)]
  · have hprint : DocComment.print ⟨d, text, scope⟩ = [] := by
      rw [DocComment.print, DocTree.print, if_neg (mt hunchanged.mp h), if_pos (hblank.mpr hall)]
    rw [hrun, fst_writeBack rfl, if_pos hprint]
  · cases hu : d.isUnchanged with
    | true => rw [hrun, writeBack_of_isUnchanged hne hu, hunchanged.mp hu]
    | false =>
      have hb : d.isBlank = false := by
        rw [Bool.eq_false_iff]
        intro hb
        simp [hblank.mp hb c hc] at hcb
      have hprint : DocComment.print ⟨d, text, scope⟩ ≠ [] :=
        DocTree.print_ne_nil (d := d)
          (DocTree.isClear_read (DocTree.isDocComment_of_without hp hu)).lineEnd hu hb
      rw [hrun, fst_writeBack rfl, if_neg hprint, contents_eq, tree_of_some rfl, hkept,
        ← DocTree.map_fst_lined, ← DocTree.map_fst_lined]
      exact congrArg (List.map Prod.fst) (DocTree.lined_read_print_without hp hu hb).1

lemma tags_tree (s : DocSlot) : s.tree.tags = s.contents.filterMap Content.tag? := by
  rw [contents_eq, List.filterMap_map]
  rfl

lemma mem_tags_tree {t : Tag TypeRef} : t ∈ s.tree.tags ↔ .tag t ∈ s.contents := by
  rw [DocTree.mem_tags, contents_eq, List.mem_map]

/-- The tags that were not to be removed are left, in their order. -/
lemma tags_removeLines (hp : ∀ s, p (.text s) = false) (s : DocSlot) :
    (s.removeLines p).1.tree.tags = s.tree.tags.filter fun t => !p (.tag t) := by
  have hkept : s.tree.tags.filter (fun t => !p (.tag t)) =
      (s.contents.filter (!p ·)).filterMap Content.tag? := by
    rw [tags_tree, List.filter_filterMap, List.filterMap_filter]
    refine List.filterMap_congr fun c _ => ?_
    cases c with
    | text u => simp [Content.tag?, hp]
    | tag t => cases h : p (.tag t) <;> simp [Content.tag?, h]
  rw [hkept]
  by_cases hs : s.text = some []
  · obtain ⟨text, scope⟩ := s
    obtain rfl : text = some [] := hs
    have hblank : contents ⟨some [], scope⟩ = [.text []] := rfl
    rw [removeLines_of_some, if_pos (DocTree.print_without_nil hp), tree_of_none rfl, hblank,
      List.filter_singleton, hp]
    rfl
  obtain ⟨hsame, hnone, hothers⟩ := contents_removeLines hp hs
  by_cases hblank : ∀ c ∈ s.contents.filter (!p ·), c.isBlank
  · by_cases h : s.contents.filter (!p ·) = s.contents
    · rw [hsame h, h, tags_tree]
    · have hempty : (s.contents.filter (!p ·)).filterMap Content.tag? = [] := by
        rw [List.filterMap_eq_nil_iff]
        intro c hc
        cases c with
        | text u => rfl
        | tag t => exact absurd (hblank _ hc) (by simp [Content.isBlank])
      rw [tree_of_none (hnone h hblank), hempty]
      rfl
  · rw [tags_tree, hothers (by simpa [and_assoc] using hblank)]

/-- A tag is still there exactly if it was not to be removed. -/
lemma mem_contents_removeLines (hp : ∀ s, p (.text s) = false) (s : DocSlot) {t : Tag TypeRef} :
    .tag t ∈ (s.removeLines p).1.contents ↔ .tag t ∈ s.contents ∧ p (.tag t) = false := by
  rw [← mem_tags_tree, tags_removeLines hp, List.mem_filter, mem_tags_tree, Bool.not_eq_true']

/-! Removing the tags of a name. -/

lemma removeTag_eq (name : Text) (s : DocSlot) :
    s.removeTag name = s.removeLines (Content.isTagNamed (Tag.normalName name)) := by
  have hnamed : ∀ d : DocTree, d.removeNamed (Tag.normalName name) =
      d.without (Content.isTagNamed (Tag.normalName name)) := fun d => by
    simp only [DocTree.removeNamed, DocTree.without, Entry.isTagNamed_content]
  rw [removeTag, removeLines]
  exact congrArg (fun f => editTree f s) (funext hnamed)

/-- The tags that are found, by what is known of the scope. -/
lemma tagsNamed_eq_filter (s : DocSlot) (name : Text) :
    s.tagsNamed name = s.tree.tags.filter fun t => t.name == Tag.normalName name ||
      DocComment.isClassTag ⟨.blank, [], s.scope⟩ (Tag.normalName name) t.name := by
  obtain ⟨_ | text, scope⟩ := s
  · rfl
  · rfl

/-- Removing the tags of a name takes away those that are called so literally, each of which was found
under the name, and leaves all other lines in their order, or no comment where these are blank. A tag that
was found as an annotation class is still found; so none is left exactly if each was called so literally. -/
theorem tagsNamed_removeTag (hs : s.text ≠ some []) (name : Text) :
    let s' := (s.removeTag name).1
    let literal : Content TypeRef → Bool := Content.isTagNamed (Tag.normalName name)
    let kept := s.contents.filter (!literal ·)
    ((∀ c ∈ s.contents, literal c → ∃ t ∈ s.tagsNamed name, c = .tag t) ∧
      (kept = s.contents → s' = s) ∧
      (kept ≠ s.contents → (∀ c ∈ kept, c.isBlank) → s'.text = none) ∧
      ((∃ c ∈ kept, c.isBlank = false) → s'.contents = kept)) ∧
    s'.tagsNamed name = (s.tagsNamed name).filter (·.name ≠ Tag.normalName name) ∧
    (s'.tagsNamed name = [] ↔ ∀ t ∈ s.tagsNamed name, t.name = Tag.normalName name) := by
  intro s' literal kept
  have hrun : s' = (s.removeLines literal).1 := congrArg Prod.fst (removeTag_eq name s)
  have hleft : s'.tagsNamed name = (s.tagsNamed name).filter (·.name ≠ Tag.normalName name) := by
    rw [tagsNamed_eq_filter, tagsNamed_eq_filter, hrun, scope_removeLines,
      tags_removeLines (fun _ => rfl), List.filter_filter, List.filter_filter]
    refine List.filter_congr fun t _ => ?_
    simp [literal, Content.isTagNamed, Content.tag?, Bool.and_comm, Bool.beq_eq_decide_eq]
  refine ⟨⟨fun c hc h => ?_, ?_⟩, hleft, ?_⟩
  · cases c with
    | text u => cases h
    | tag t =>
      have hname : t.name = Tag.normalName name := by
        simpa [literal, Content.isTagNamed, Content.tag?] using h
      rw [tagsNamed_eq_filter]
      exact ⟨t, List.mem_filter.mpr ⟨mem_tags_tree.mpr hc, by simp [hname]⟩, rfl⟩
  · rw [hrun]
    exact contents_removeLines (fun _ => rfl) hs
  · rw [hleft, List.filter_eq_nil_iff]
    simp

/-- In a comment that opens on its second line, one of the two tags that are found is called so in
full. -/
theorem tagsNamed_removeTag_second_line :
    let scope := NameScope.inNamespace (some "App")
    let s : DocSlot := ⟨some "\n/** Note.\n *\n * @App\\Inject a\n @Inject b */", some scope⟩
    let s' := (s.removeTag "App\\Inject").1
    (s.tagsNamed "App\\Inject").map (·.name) = ["@App\\Inject".toList, "@Inject".toList] ∧
      s'.text = some "\n/** Note.\n *\n @Inject b\n */".toList ∧
      s'.contents = s.contents.filter (!Content.isTagNamed "@App\\Inject" ·) ∧
      s'.tagsNamed "App\\Inject" = [⟨"@Inject", .plain "b"⟩] := by
  intro scope s s'
  obtain ⟨⟨-, -, -, hothers⟩, hleft, -⟩ :=
    tagsNamed_removeTag (s := s) (by decide) "App\\Inject"
  have hkept : ∃ c ∈ s.contents.filter (!Content.isTagNamed "@App\\Inject" ·),
      c.isBlank = false := by decide +kernel
  exact ⟨by decide +kernel, by decide +kernel, hothers hkept, hleft.trans (by decide +kernel)⟩

/-- A tag that is found through an import is not removed. -/
theorem removeTag_annotation :
    let scope := (NameScope.inNamespace (some "App")).importAs "JMS\\Annotation" "DI"
    let s : DocSlot := ⟨some "/**\n * Note.\n * @DI\\Inject\n */", some scope⟩
    let name : Text := "JMS\\Annotation\\Inject"
    s.tagsNamed name = [⟨"@DI\\Inject", .plain []⟩] ∧ s.removeTag name = (s, false) := by
  decide +kernel

end DocSlot
end DocTypes
