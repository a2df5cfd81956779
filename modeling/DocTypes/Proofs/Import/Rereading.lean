import DocTypes.Proofs.Doc.Renaming
import DocTypes.Proofs.Import.Names

/-!
A comment whose names were shortened, printed and read again. Each entry comes back with the names
it has now, unless its type cannot be read any more: then it comes back without names.
-/
namespace DocTypes
open Text

namespace Renaming

/-- What was read from a line with its names looked up, and shortened since. -/
structure IsShortening (scope : NameScope) (r : Renaming) : Prop where
  line : ∃ l, '\n' ∉ l ∧ r.before.written = .read l
  origin : ∃ o, r.origin = some o ∧ o.content = r.before.written
  looked : ∀ p ∈ r.content.names, p.1 = (TypeRef.ofWritten p.1.written).resolveIn (some scope)
  short : ∀ p ∈ r.content.names, p.1.IsShortened p.2

variable {scope : NameScope} {r : Renaming}

/-- The names that were read are names, and the short ones are names or stray. -/
lemma isWord_of_isShortening (h : r.IsShortening scope) : ∀ p ∈ r.content.names,
    TypeExpr.isName p.1.written ∧ TypeExpr.isWord p.2.written := by
  intro p hp
  obtain ⟨l, hl, hread⟩ := h.line
  have hname : TypeExpr.isName p.1.written := by
    refine Content.isName_of_mem_names_read hl _ ?_
    rw [← hread, written_before, Content.names_map]
    exact List.mem_map_of_mem hp
  exact ⟨hname, TypeRef.isWord_of_isShortened (h.short p hp) hname⟩

/-- The short names are words in the place of the names. -/
lemma IsShortening.isRewording (h : r.IsShortening scope) : r.IsRewording :=
  ⟨h.line, h.origin, fun p hp => (isWord_of_isShortening h p hp).2⟩

lemma names_reread_of_isReadable (h : r.IsShortening scope)
    (hr : r.after.isUntouched || r.after.written.isReadable) :
    r.after.reread.names = r.content.names.map (·.2.written) :=
  h.isRewording.names_reread.2.1.trans (if_pos hr)

end Renaming

namespace DocTree

variable {text : Text} (hs : startsWith "/**" text) (hd : isDocComment (trim text))
  (classExists : Text → Bool) (scope : NameScope) (st : ImportState)

include hd

/-- An entry of the comment whose names were left alone or shortened. -/
lemma isShortening_of_mem {rs : List Renaming}
    (hbefore : ((read text).resolveIn (some scope)).entries = rs.map Renaming.before) {r : Renaming}
    (hr : r ∈ rs) (hshort : ∀ p ∈ r.content.names, p.1.IsShortened p.2) :
    r.IsShortening scope ∧ r.before.IsKept (read text).frame := by
  have hmem : r.before ∈ ((read text).resolveIn (some scope)).entries :=
    hbefore ▸ List.mem_map_of_mem hr
  have hkept := isKept_before hbefore hd hr
  refine ⟨⟨hkept.exists_line, exists_origin_of_before hbefore hr, fun p hp => ?_, hshort⟩, hkept⟩
  have hname : p.1 ∈ r.before.content.names := by
    rw [Renaming.before, Content.names_map]
    exact List.mem_map_of_mem hp
  exact (eq_resolveIn_of_mem_names (List.mem_flatMap.mpr ⟨r.before, hmem, hname⟩)).2

/-- Shortening the names of a comment, entry by entry, in one run over its names. -/
lemma exists_isShortening_steps : ∃ rs : List Renaming,
    ((read text).resolveIn (some scope)).entries = rs.map Renaming.before ∧
      (((read text).resolveIn (some scope)).shorten classExists scope st).1 =
        { (read text).resolveIn (some scope) with entries := rs.map Renaming.after } ∧
      rs.map (·.origin) = (read text).entries.map (·.origin) ∧
      (∀ r ∈ rs, r.IsShortening scope ∧ r.before.IsKept (read text).frame) ∧
      Steps (TypeRef.shorten classExists scope) st (rs.flatMap (·.content.names))
        (((read text).resolveIn (some scope)).shorten classExists scope st).2 := by
  obtain ⟨rs, hbefore, hafter, hsteps⟩ :=
    ((read text).resolveIn (some scope)).exists_shorten classExists scope st
  refine ⟨rs, hbefore, hafter, origins_of_before hbefore, fun r hr => ?_, hsteps⟩
  exact isShortening_of_mem hd scope hbefore hr fun p hp =>
    hsteps.forall_mem (TypeRef.isShortened_shorten classExists scope) p
      (List.mem_flatMap.mpr ⟨r, hr, hp⟩)

/-- Shortening the names of a comment, entry by entry. -/
lemma exists_isShortening : ∃ rs : List Renaming,
    ((read text).resolveIn (some scope)).entries = rs.map Renaming.before ∧
      (((read text).resolveIn (some scope)).shorten classExists scope st).1 =
        { (read text).resolveIn (some scope) with entries := rs.map Renaming.after } ∧
      rs.map (·.origin) = (read text).entries.map (·.origin) ∧
      ∀ r ∈ rs, r.IsShortening scope ∧ r.before.IsKept (read text).frame := by
  obtain ⟨rs, hbefore, hafter, horigin, hrs, -⟩ :=
    exists_isShortening_steps hd classExists scope st
  exact ⟨rs, hbefore, hafter, horigin, hrs⟩

omit hd in
/-- A comment whose names were shortened has words in the place of its names. -/
lemma isReworded_shorten {rs : List Renaming} {d : DocTree}
    (hd' : d = { (read text).resolveIn (some scope) with entries := rs.map Renaming.after })
    (horigin : rs.map (·.origin) = (read text).entries.map (·.origin))
    (hrs : ∀ r ∈ rs, r.IsShortening scope ∧ r.before.IsKept (read text).frame) :
    IsReworded text rs d := by
  subst hd'
  exact ⟨rfl, rfl, rfl, horigin, fun r hr => ⟨(hrs r hr).1.isRewording, (hrs r hr).2⟩⟩

omit hd in
/-- Only tags with a type are changed, so a comment that was changed is not blank. -/
lemma isBlank_shorten {rs : List Renaming} {d : DocTree}
    (hd' : d = { (read text).resolveIn (some scope) with entries := rs.map Renaming.after })
    (horigin : rs.map (·.origin) = (read text).entries.map (·.origin))
    (hrs : ∀ r ∈ rs, r.IsShortening scope ∧ r.before.IsKept (read text).frame)
    (hu : d.isUnchanged = false) : d.isBlank = false :=
  (isReworded_shorten scope hd' horigin hrs).isBlank hu

include hs in
/-- The comment with short names is read again as what its entries are read as. -/
theorem written_read_print_shorten {rs : List Renaming} {d : DocTree}
    (hd' : d = { (read text).resolveIn (some scope) with entries := rs.map Renaming.after })
    (horigin : rs.map (·.origin) = (read text).entries.map (·.origin))
    (hrs : ∀ r ∈ rs, r.IsShortening scope ∧ r.before.IsKept (read text).frame) :
    d.print text ≠ [] ∧ (read (d.print text)).entries.map Entry.written =
      rs.map fun r => r.after.reread := by
  have hreworded := isReworded_shorten scope hd' horigin hrs
  cases hu : d.isUnchanged with
  | true =>
    have hprint : d.print text = text := if_pos hu
    refine ⟨?_, hreworded.written_read_print hd (by rwa [hprint])⟩
    rw [hprint]
    rintro rfl
    exact absurd hs (by decide)
  | false =>
    obtain ⟨hstart, hdoc⟩ := isDocComment_print_usual
      (hreworded.frame ▸ (isUsual_read hs hd).1 : d.frame.IsUsual) hu (hreworded.isBlank hu) text
    refine ⟨fun hnil => ?_, hreworded.written_read_print hd hdoc⟩
    rw [hnil] at hstart
    exact absurd hstart (by decide)

end DocTree
end DocTypes
