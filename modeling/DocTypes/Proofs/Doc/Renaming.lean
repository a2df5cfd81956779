import DocTypes.Proofs.Doc.Lossless
import DocTypes.Proofs.TypeExpr.OtherNames

/-!
A comment with other names in its types, printed and read again. Each entry comes back with the names
it has now, unless its type cannot be read any more: then it comes back without names.
-/
namespace DocTypes
open Text

namespace Content

/-- The type of the tag, if there is one, reads as a type when it is printed. -/
def isReadable : Content Text → Bool
  | .tag ⟨_, .typed v⟩ => v.type.isReadable
  | _ => true

end Content

namespace Renaming

/-- What was read from a line, with words in the place of its names. -/
structure IsRewording (r : Renaming) : Prop where
  line : ∃ l, '\n' ∉ l ∧ r.before.written = .read l
  origin : ∃ o, r.origin = some o ∧ o.content = r.before.written
  words : ∀ p ∈ r.content.names, TypeExpr.isWord p.2.written

variable {r : Renaming}

lemma written_before (r : Renaming) : r.before.written = r.content.map (·.1.written) :=
  Content.map_map _ _ _

lemma written_after (r : Renaming) : r.after.written = r.content.map (·.2.written) :=
  Content.map_map _ _ _

lemma names_written_after (r : Renaming) :
    r.after.written.names = r.content.names.map (·.2.written) := by
  rw [written_after, Content.names_map]

/-- An entry that has another text now is a tag with a type. -/
lemma exists_typed (h : ∃ o, r.origin = some o ∧ o.content = r.before.written)
    (hu : r.after.isUntouched = false) : ∃ name v, r.content = .tag ⟨name, .typed v⟩ := by
  obtain ⟨o, ho, hc⟩ := h
  have htouched : r.before.written ≠ r.after.written := by
    intro heq
    have := Entry.isUntouched_iff.mpr ⟨o, ho, hc.trans heq⟩
    simp [hu] at this
  rw [written_before, written_after] at htouched
  cases hcontent : r.content with
  | text s => simp [hcontent, Content.map] at htouched
  | tag t =>
    obtain ⟨name, value⟩ := t
    cases value with
    | typed v => exact ⟨name, v, rfl⟩
    | plain s => simp [hcontent, Content.map, Tag.map, TagValue.map] at htouched
    | malformed s => simp [hcontent, Content.map, Tag.map, TagValue.map] at htouched

/-- An entry that has the text that was read is as it was. -/
lemma isKept_after {f : Frame} (h : r.before.IsKept f) (hu : r.after.isUntouched) :
    r.after.IsKept f := by
  obtain ⟨o, ho, -, hf⟩ := h
  obtain ⟨o', ho', hc'⟩ := Entry.isUntouched_iff.mp hu
  obtain rfl : o' = o := Option.some.inj (ho'.symm.trans ho)
  exact ⟨o', ho', hc', hf⟩

namespace IsRewording

/-- Printed and read again, a tag with other names has the type it is printed with, or none. -/
lemma exists_reread (h : r.IsRewording) (hu : r.after.isUntouched = false) :
    ∃ name v value, r.content = .tag ⟨name, .typed v⟩ ∧ (v.type.map (·.2.written)).isProper ∧
      r.after.IsOneLine ∧ r.after.reread = .tag ⟨name, value⟩ ∧
      value.typed?.map (·.type) = if r.after.written.isReadable then
        some (TypeExpr.regroup (v.type.map (·.2.written))) else none := by
  obtain ⟨name, v, hcontent⟩ := exists_typed h.origin hu
  obtain ⟨l, hl, hread⟩ := h.line
  have hwords := h.words
  rw [hcontent] at hwords
  rw [written_before, hcontent] at hread
  have hafter : r.after.written = .tag ⟨name, .typed (v.map (·.2.written))⟩ := by
    rw [written_after, hcontent]
    rfl
  have hproper : (v.type.map (·.2.written)).isProper := by
    rw [TypeExpr.isProper_map _ (·.1.written)]
    exact (Content.isTrim_of_read_tag hl hread.symm).1.1
  have hnames : ∀ n ∈ (v.type.map (·.2.written)).names, TypeExpr.isWord n := by
    rw [TypeExpr.names_map, List.forall_mem_map]
    exact hwords
  obtain ⟨hfeed, hsolid, value, hagain, htype⟩ :=
    Content.exists_read_render hl hread.symm hproper hnames
  have hrender : r.after.written.render = Tag.render ⟨name, .typed (v.map (·.2.written))⟩ := by
    rw [hafter]
    rfl
  refine ⟨name, v, value, hcontent, hproper, ?_, ?_, ?_⟩
  · exact ⟨hrender ▸ hfeed, hrender ▸ hsolid.trim_eq, fun hnil =>
      absurd (hrender.symm.trans hnil) hsolid.ne_nil⟩
  · rw [Entry.reread, hu, if_neg (by decide), hrender]
    exact hagain
  · rw [htype, hafter]
    rfl

/-- Printed and read again, the entry has the names it has now, or none. -/
lemma names_reread (h : r.IsRewording) :
    (r.after.isUntouched = false → r.after.IsOneLine) ∧
      r.after.reread.names =
        (if r.after.isUntouched || r.after.written.isReadable then
          r.content.names.map (·.2.written) else []) ∧
      ((r.after.isUntouched || r.after.written.isReadable) = false → r.content.names ≠ []) := by
  cases hu : r.after.isUntouched with
  | true =>
    refine ⟨nofun, ?_, nofun⟩
    rw [Entry.reread, if_pos hu, names_written_after]
    rfl
  | false =>
    obtain ⟨name, v, value, hcontent, hproper, hline, hreread, htype⟩ := h.exists_reread hu
    refine ⟨fun _ => hline, ?_, fun _ => ?_⟩
    · rw [hreread, Content.names_tag, htype, hcontent, Bool.false_or]
      split
      · exact (TypeExpr.names_regroup _).trans (TypeExpr.names_map _ _)
      · rfl
    · rw [hcontent]
      have := TypeExpr.names_ne_nil hproper
      rw [TypeExpr.names_map] at this
      exact fun hnil => this (congrArg _ hnil)

end IsRewording
end Renaming

namespace DocTree

/-- A tree whose entries all are untouched, in the order in which they were read, is unchanged. -/
lemma exists_touched {f : Frame} {lines : List SourceLine} {rs : List Renaming}
    (horigin : rs.map (·.origin) = (ofLines f lines).entries.map (·.origin)) {d : DocTree}
    (hentries : d.entries = rs.map Renaming.after) (hcount : d.readCount = lines.length)
    (hu : d.isUnchanged = false) : ∃ r ∈ rs, r.after.isUntouched = false := by
  by_contra hall
  simp only [not_exists, not_and, Bool.not_eq_false] at hall
  have hlen : rs.length = lines.length := by
    simpa [ofLines] using congrArg List.length horigin
  refine absurd ?_ (Bool.eq_false_iff.mp hu)
  simp only [isUnchanged, Bool.and_eq_true, beq_iff_eq, List.all_eq_true,
    List.mem_zipIdx_iff_getElem?, Prod.forall]
  refine ⟨by rw [hentries, List.length_map, hlen, hcount], fun e i he => ?_⟩
  rw [hentries, List.getElem?_map] at he
  obtain ⟨r, hr, rfl⟩ := Option.map_eq_some_iff.mp he
  refine ⟨hall r (List.mem_of_getElem? hr), ?_⟩
  have hi := congrArg (·[i]?) horigin
  simp only [List.getElem?_map, hr, Option.map_some] at hi
  obtain ⟨e, he, ho⟩ := Option.map_eq_some_iff.mp hi.symm
  have hindex : e.origin.any (·.index == i) := by
    simp only [ofLines, List.getElem?_mapIdx] at he
    obtain ⟨l, -, rfl⟩ := Option.map_eq_some_iff.mp he
    simp [SourceLine.entry]
  rwa [ho] at hindex

section
variable {text : Text} {rs : List Renaming} {d : DocTree}
  (hcount : d.readCount = (read text).readCount) (hentries : d.entries = rs.map Renaming.after)
  (horigins : rs.map (·.origin) = (read text).entries.map (·.origin))
  (h : ∀ r ∈ rs, ∃ o, r.origin = some o ∧ o.content = r.before.written)
  (hu : d.isUnchanged = false)
include hcount hentries horigins h hu

/-- Only tags with a type are changed. -/
lemma exists_typed_of_touched : ∃ r ∈ rs, ∃ name v, r.content = .tag ⟨name, .typed v⟩ := by
  obtain ⟨f, lines, hlines⟩ := exists_read_eq_ofLines text
  have hcount' : d.readCount = lines.length := by
    rw [hcount, hlines]
    rfl
  obtain ⟨r, hr, hru⟩ := exists_touched (hlines ▸ horigins) hentries hcount' hu
  exact ⟨r, hr, Renaming.exists_typed (h r hr) hru⟩

/-- A comment that was changed is not blank. -/
lemma isBlank_of_touched : d.isBlank = false := by
  obtain ⟨r, hr, name, v, hv⟩ := exists_typed_of_touched hcount hentries horigins h hu
  exact isBlank_of_tag (hentries ▸ List.mem_map_of_mem hr) (congrArg (Content.map Prod.snd) hv)

end

/-- The tree of a comment with other names in its types. -/
structure IsReworded (text : Text) (rs : List Renaming) (d : DocTree) : Prop where
  frame : d.frame = (read text).frame
  readCount : d.readCount = (read text).readCount
  entries : d.entries = rs.map Renaming.after
  origins : rs.map (·.origin) = (read text).entries.map (·.origin)
  rewords : ∀ r ∈ rs, r.IsRewording ∧ r.before.IsKept (read text).frame

namespace IsReworded

variable {text : Text} {rs : List Renaming} {d : DocTree}

lemma isEditOf (h : IsReworded text rs d) : (read text).IsEditOf d := by
  refine ⟨h.frame, h.readCount, fun e he o ho => ?_⟩
  rw [h.entries] at he
  obtain ⟨r, hr, rfl⟩ := List.mem_map.mp he
  have : some o ∈ (read text).entries.map (·.origin) := by
    rw [← h.origins, ← ho]
    exact List.mem_map_of_mem hr
  obtain ⟨e₀, he₀, ho₀⟩ := List.mem_map.mp this
  exact ⟨e₀, he₀, ho₀⟩

lemma isBlank (h : IsReworded text rs d) (hu : d.isUnchanged = false) : d.isBlank = false :=
  isBlank_of_touched h.readCount h.entries h.origins (fun r hr => (h.rewords r hr).1.origin) hu

/-- What was left alone is as it was read, and what was changed is one line. -/
lemma isKept_or_isOneLine (h : IsReworded text rs d) :
    ∀ e ∈ d.entries, e.IsKept d.frame ∨ e.isUntouched = false ∧ e.IsOneLine := by
  rw [h.entries, List.forall_mem_map]
  intro r hr
  obtain ⟨hr', hkept⟩ := h.rewords r hr
  cases hu : r.after.isUntouched with
  | true => exact .inl (h.frame ▸ Renaming.isKept_after hkept hu)
  | false => exact .inr ⟨rfl, hr'.names_reread.1 hu⟩

lemma map_reread (h : IsReworded text rs d) :
    d.entries.map Entry.reread = rs.map fun r => r.after.reread := by
  rw [h.entries, List.map_map]
  rfl

/-- The printed comment is read as what its entries are read as, if it is a doc comment at all. -/
theorem written_read_print (h : IsReworded text rs d) (hd : isDocComment (trim text))
    (hp : isDocComment (trim (d.print text))) :
    (read (d.print text)).entries.map Entry.written = rs.map fun r => r.after.reread := by
  rw [← h.map_reread]
  cases hu : d.isUnchanged with
  | true =>
    obtain ⟨f, lines, hlines⟩ := exists_read_eq_ofLines text
    rw [print, if_pos hu, ← written_of_isUnchanged hlines h.isEditOf hu]
    refine List.map_congr_left fun e he => ?_
    cases heu : e.isUntouched with
    | true => rw [Entry.reread, if_pos heu]
    | false => simp [isUnchanged_of_touched he heu] at hu
  | false =>
    exact written_read_print_of_isClear (h.frame ▸ isClear_read hd) hu (h.isBlank hu) hp
      h.isKept_or_isOneLine

end IsReworded

/-! The names of a comment, and one replacement for all of them. -/

variable {text : Text} {scope : Option NameScope}

lemma map_written_resolveIn (scope : Option NameScope) (d : DocTree) :
    (d.resolveIn scope).entries.map Entry.written = d.entries.map Entry.written :=
  (List.map_map ..).trans (List.map_congr_left fun e _ =>
    Entry.written_mapContent (TypeRef.written_resolveIn scope) e)

lemma names_resolveIn_read (scope : Option NameScope) (s : Text) :
    ((read s).resolveIn scope).names = ((read s).entries.map Entry.written).flatMap fun c =>
      c.names.map fun w => (TypeRef.ofWritten w).resolveIn scope := by
  have hnames : ∀ d : DocTree, d.names = (d.entries.map (·.content)).flatMap Content.names :=
    fun d => (List.flatMap_map ..).symm
  rw [hnames, contents_resolveIn_read, List.flatMap_map]
  exact List.flatMap_congr fun c _ => Content.names_map _ c

/-- What is no doc comment has no names. -/
lemma names_of_mem_read {c : Content Text} (hd : isDocComment (trim text) = false)
    (hc : c ∈ (read text).entries.map Entry.written) : c.names = [] := by
  rw [written_read_of_not_isDocComment hd] at hc
  obtain rfl := List.mem_singleton.mp hc
  rfl

lemma isDocComment_of_mem_names {r : TypeRef} (h : r ∈ ((read text).resolveIn scope).names) :
    isDocComment (trim text) := by
  by_contra hd
  rw [names_resolveIn_read, List.mem_flatMap] at h
  obtain ⟨c, hc, hr⟩ := h
  rw [names_of_mem_read (by simpa using hd) hc] at hr
  cases hr

/-- Every name that was read is a name, looked up. -/
lemma eq_resolveIn_of_mem_names {r : TypeRef} (h : r ∈ ((read text).resolveIn scope).names) :
    TypeExpr.isName r.written ∧ r = (TypeRef.ofWritten r.written).resolveIn scope := by
  have hd := isDocComment_of_mem_names h
  rw [names_resolveIn_read, List.mem_flatMap] at h
  obtain ⟨c, hc, hr⟩ := h
  obtain ⟨e, he, rfl⟩ := List.mem_map.mp hc
  obtain ⟨w, hw, rfl⟩ := List.mem_map.mp hr
  obtain ⟨l, hl, hread⟩ := (isKept_read hd e he).exists_line
  refine ⟨?_, by simp⟩
  rw [TypeRef.written_resolveIn, TypeRef.written_ofWritten]
  exact Content.isName_of_mem_names_read hl w (hread ▸ hw)

/-- Every name next to its replacement. -/
def renamings (g : TypeRef → TypeRef) (d : DocTree) : List Renaming :=
  d.entries.map fun e => ⟨e.content.map fun r => (r, g r), e.origin⟩

variable {g : TypeRef → TypeRef}

lemma before_renamings (g : TypeRef → TypeRef) (d : DocTree) :
    (d.renamings g).map Renaming.before = d.entries := by
  rw [renamings, List.map_map]
  refine (List.map_congr_left fun e _ => ?_).trans (List.map_id _)
  have : (e.content.map fun r => (r, g r)).map Prod.fst = e.content :=
    (Content.map_map _ _ _).trans (Content.map_id _)
  exact congrArg (Entry.mk · e.origin) this

lemma after_renamings (g : TypeRef → TypeRef) (d : DocTree) :
    (d.renamings g).map Renaming.after = (d.mapNames g).entries := by
  rw [renamings, List.map_map]
  refine List.map_congr_left fun e _ => ?_
  exact congrArg (Entry.mk · e.origin) (Content.map_map _ _ _)

lemma names_renamings (g : TypeRef → TypeRef) (d : DocTree) :
    (d.renamings g).flatMap (·.content.names) = d.names.map fun r => (r, g r) := by
  rw [renamings, List.flatMap_map, names, List.map_flatMap]
  exact List.flatMap_congr fun e _ => Content.names_map _ _

section
variable {rs : List Renaming}
  (hbefore : ((read text).resolveIn scope).entries = rs.map Renaming.before)
include hbefore

lemma origins_of_before : rs.map (·.origin) = (read text).entries.map (·.origin) := by
  have h := congrArg (List.map (·.origin)) hbefore
  rw [List.map_map] at h
  exact h.symm.trans (by simp [resolveIn, mapNames, mapContents])

/-- Every entry remembers what was read. -/
lemma exists_origin_of_before {r : Renaming} (hr : r ∈ rs) :
    ∃ o, r.origin = some o ∧ o.content = r.before.written := by
  have hmem : r.before ∈ ((read text).resolveIn scope).entries :=
    hbefore ▸ List.mem_map_of_mem hr
  obtain ⟨i, hi⟩ := List.mem_iff_getElem?.mp hmem
  obtain ⟨o, ho, -, hc⟩ :=
    (isUnchanged_iff.mp (isUnchanged_resolveIn scope (isUnchanged_read text))).2 i _ hi
  exact ⟨o, ho, hc⟩

lemma isKept_before (hd : isDocComment (trim text)) {r : Renaming} (hr : r ∈ rs) :
    r.before.IsKept (read text).frame :=
  DocSlot.isKept_mapNames (TypeRef.written_resolveIn scope) (isKept_read hd) _
    (hbefore ▸ List.mem_map_of_mem hr)

end

lemma isUnchanged_mapNames_of_not_isDocComment (hd : isDocComment (trim text) = false) :
    (((read text).resolveIn scope).mapNames g).isUnchanged :=
  isUnchanged_mapNames (fun _ hr => absurd (isDocComment_of_mem_names hr) (by simp [hd]))
    (isUnchanged_resolveIn scope (isUnchanged_read text))

/-- A comment in which words took the place of the names. -/
theorem isReworded_mapNames (hd : isDocComment (trim text))
    (hw : ∀ r ∈ ((read text).resolveIn scope).names, TypeExpr.isWord (g r).written) :
    IsReworded text (((read text).resolveIn scope).renamings g)
      (((read text).resolveIn scope).mapNames g) := by
  have hbefore := (before_renamings g ((read text).resolveIn scope)).symm
  refine ⟨rfl, rfl, (after_renamings _ _).symm, origins_of_before hbefore, fun r hr => ?_⟩
  have hkept := isKept_before hbefore hd hr
  refine ⟨⟨hkept.exists_line, exists_origin_of_before hbefore hr, fun p hp => ?_⟩, hkept⟩
  have : p ∈ (((read text).resolveIn scope).renamings g).flatMap (·.content.names) :=
    List.mem_flatMap.mpr ⟨r, hr, hp⟩
  rw [names_renamings] at this
  obtain ⟨n, hn, rfl⟩ := List.mem_map.mp this
  exact hw n hn

section
variable (hw : ∀ r ∈ ((read text).resolveIn scope).names, TypeExpr.isWord (g r).written)
include hw

/-- Printed and read again, the comment has no names but those it was printed with. -/
theorem exists_of_mem_names_read_print {later : Option NameScope} {r' : TypeRef}
    (h : r' ∈ ((read ((((read text).resolveIn scope).mapNames g).print text)).resolveIn later).names) :
    ∃ r ∈ ((read text).resolveIn scope).names, r'.written = (g r).written := by
  have hp := isDocComment_of_mem_names h
  cases hd : isDocComment (trim text) with
  | false =>
    have hprint : (((read text).resolveIn scope).mapNames g).print text = text :=
      if_pos (isUnchanged_mapNames_of_not_isDocComment hd)
    rw [hprint, hd] at hp
    cases hp
  | true =>
    have hreworded := isReworded_mapNames hd hw
    rw [names_resolveIn_read, hreworded.written_read_print hd hp, List.flatMap_map,
      List.mem_flatMap] at h
    obtain ⟨r, hr, hmem⟩ := h
    obtain ⟨w, hw', rfl⟩ := List.mem_map.mp hmem
    rw [(hreworded.rewords r hr).1.names_reread.2.1] at hw'
    split at hw'
    · obtain ⟨p, hp', rfl⟩ := List.mem_map.mp hw'
      have : p ∈ (((read text).resolveIn scope).renamings g).flatMap (·.content.names) :=
        List.mem_flatMap.mpr ⟨r, hr, hp'⟩
      rw [names_renamings] at this
      obtain ⟨n, hn, rfl⟩ := List.mem_map.mp this
      exact ⟨n, hn, by simp⟩
    · cases hw'

/-- The comment is printed as it was read exactly if every name is written as before. -/
theorem print_mapNames_eq_iff :
    (((read text).resolveIn scope).mapNames g).print text = text ↔
      ∀ r ∈ ((read text).resolveIn scope).names, (g r).written = r.written := by
  refine ⟨fun hprint => ?_, fun hsame =>
    if_pos (isUnchanged_mapNames hsame (isUnchanged_resolveIn scope (isUnchanged_read text)))⟩
  intro n hn
  have hd := isDocComment_of_mem_names hn
  have hreworded := isReworded_mapNames hd hw
  have hread := hreworded.written_read_print hd (by rwa [hprint])
  have hbefore : (((read text).resolveIn scope).renamings g).map (·.before.written) =
      (read text).entries.map Entry.written := by
    rw [← map_written_resolveIn scope, ← before_renamings g ((read text).resolveIn scope), List.map_map]
    rfl
  -- The same text is read as the same, so each entry holds after the edit what it held before.
  rw [hprint, ← hbefore, List.map_inj_left] at hread
  have hmem : (n, g n) ∈ (((read text).resolveIn scope).renamings g).flatMap (·.content.names) := by
    rw [names_renamings]
    exact List.mem_map_of_mem hn
  obtain ⟨r, hr, hp⟩ := List.mem_flatMap.mp hmem
  obtain ⟨-, hreread, hlost⟩ := (hreworded.rewords r hr).1.names_reread
  rw [← hread r hr, Renaming.written_before, Content.names_map] at hreread
  cases hkept : r.after.isUntouched || r.after.written.isReadable with
  | false =>
    -- A type that cannot be read would have lost its names.
    rw [hkept, if_neg (by decide), List.map_eq_nil_iff] at hreread
    exact absurd hreread (hlost hkept)
  | true =>
    rw [hkept, if_pos rfl, List.map_inj_left] at hreread
    exact (hreread _ hp).symm

lemma print_mapNames_ne_nil (hne : text ≠ []) :
    (((read text).resolveIn scope).mapNames g).print text ≠ [] := by
  cases hu : (((read text).resolveIn scope).mapNames g).isUnchanged with
  | true => rwa [print, if_pos hu]
  | false =>
    cases hd : isDocComment (trim text) with
    | false => rw [isUnchanged_mapNames_of_not_isDocComment hd] at hu; cases hu
    | true =>
      have hreworded := isReworded_mapNames hd hw
      exact print_ne_nil (hreworded.frame ▸ (isClear_read hd).lineEnd) hu (hreworded.isBlank hu)

end

end DocTree

namespace DocSlot

variable {text : Text} {scope : Option NameScope} {g : TypeRef → TypeRef} (hne : text ≠ [])
  (hw : ∀ r ∈ ((DocTree.read text).resolveIn scope).names, TypeExpr.isWord (g r).written)
include hne hw

/-- The comment with other names is stored, and counts as written anew unless it is the same. -/
lemma editTree_mapNames : editTree (DocTree.mapNames g) ⟨some text, scope⟩ =
    (⟨some ((((DocTree.read text).resolveIn scope).mapNames g).print text), scope⟩,
      !((((DocTree.read text).resolveIn scope).mapNames g).print text == text)) :=
  writeBack_of_ne_nil (s := ⟨some text, scope⟩)
    (c := ⟨((DocTree.read text).resolveIn scope).mapNames g, text, scope⟩) rfl
    (DocTree.print_mapNames_ne_nil hw hne)

/-- Other names are noticed exactly if one is written otherwise than before. -/
theorem editTree_mapNames_iff : (editTree (DocTree.mapNames g) ⟨some text, scope⟩).2 = true ↔
    ∃ r ∈ ((DocTree.read text).resolveIn scope).names, (g r).written ≠ r.written := by
  rw [editTree_mapNames hne hw, Bool.not_eq_true', beq_eq_false_iff_ne, ne_eq,
    DocTree.print_mapNames_eq_iff hw]
  simp

omit hne in
/-- A replacement that leaves its own results alone, as far as they are names, changes nothing the
second time, in whatever form the first result is read again. -/
theorem editTree_mapNames_again (hg : ∀ r ∈ ((DocTree.read text).resolveIn scope).names,
    TypeExpr.isName (g r).written →
      (g ((TypeRef.ofWritten (g r).written).resolveIn scope)).written = (g r).written) :
    let s := (editTree (DocTree.mapNames g) ⟨some text, scope⟩).1
    editTree (DocTree.mapNames g) s = (s, false) := by
  refine editTree_editTree fun text' htext _ => ?_
  obtain rfl := Option.some.inj htext
  refine DocTree.isUnchanged_mapNames (fun r' hr' => ?_)
    (DocTree.isUnchanged_resolveIn scope (DocTree.isUnchanged_read _))
  obtain ⟨r, hr, hwritten⟩ := DocTree.exists_of_mem_names_read_print hw hr'
  obtain ⟨hname, hlookup⟩ := DocTree.eq_resolveIn_of_mem_names hr'
  rw [hwritten] at hname hlookup
  rw [hlookup, hg r hr hname, TypeRef.written_resolveIn, TypeRef.written_ofWritten]

end DocSlot
end DocTypes
