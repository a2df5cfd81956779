import DocTypes.Proofs.Doc.Placement
import DocTypes.Proofs.Import.Holders
import DocTypes.Proofs.Import.VarTypes

/-!
Names that keep their meaning whatever names are met besides. The imports that the names of a comment
may ask for are known before any is shortened; a name is safe if none of them can change what it
stands for. A comment of safe names stands for the same with its names shortened.
-/
namespace DocTypes
open Text

namespace Name

lemma short_subset_unrooted (w : Text) : short w ⊆ unrooted w := by
  unfold short
  split
  · exact List.Subset.refl _
  · exact subset_afterLast '\\' (unrooted w)

/-- The short name of one segment is one segment. -/
lemma isNamespaced_short {w : Text} (h : isNamespaced w = false) : isNamespaced (short w) = false := by
  have hmem : '\\' ∉ unrooted w := by simpa [isNamespaced] using h
  have hshort := mt (short_subset_unrooted w (a := '\\')) hmem
  simpa [isNamespaced] using hshort

/-- Only `$this` begins with a `$`, and it is no short name. -/
lemma isJoinable_short {w : Text} (h : TypeExpr.isName w) (hn : isNamespaced w) :
    TypeExpr.isJoinable (short w) := by
  by_contra hj
  obtain ⟨x, hx⟩ := TypeExpr.exists_of_not_isJoinable (Bool.eq_false_iff.mpr hj)
  have hmem : '$' ∈ unrooted w := short_subset_unrooted w (hx ▸ List.mem_cons_self)
  exact absurd (TypeExpr.continuesName_of_isSpelled (isSpelled_unrooted h hn) _ hmem) (by decide)

end Name

/-! One name. -/

namespace NameScope

/-- The full names that may come to hold a segment, if these imports may be added. -/
def mayHold (scope : NameScope) (imports : List Text) (segment : Text) : List Text :=
  match scope.importedAs? segment with
  | some x => [x]
  | none => imports.filter fun x => eqIgnoreCase (Name.short x) segment

lemma mem_mayHold {scope : NameScope} {p : PendingImports} {imports : List Text} {segment x : Text}
    (hp : p.names scope ⊆ imports) (h : p.holder? scope segment = some x) :
    x ∈ scope.mayHold imports segment := by
  unfold mayHold
  rcases PendingImports.of_holder? h with himport | ⟨hnone, hx, hshort⟩
  · rw [himport]
    exact List.mem_singleton_self x
  · rw [hnone]
    exact List.mem_filter.mpr ⟨hp hx, hshort⟩

end NameScope

namespace TypeRef

/-- The short name can be written for the name: it is one segment and no reserved word; the class is
imported under it, if at all, and always spelled alike; and where it is the class at home, nothing else
may come to hold it. -/
structure HasSafeShort (classExists : Text → Bool) (scope : NameScope) (imports : List Text)
    (r : TypeRef) : Prop where
  name : TypeExpr.isName (Name.short r.written)
  segment : Name.isNamespaced (Name.short r.written) = false
  word : Name.isReserved (Name.short r.written) = false
  imported : ∀ x ∈ scope.imports.values, eqIgnoreCase x r.full →
    scope.importedAs? (Name.short r.written) = some r.full
  spelled : ∀ x ∈ imports, eqIgnoreCase x r.full → x = r.full
  sibling : classExists (scope.atHome (Name.short r.written)) →
    eqIgnoreCase (scope.atHome (Name.short r.written)) r.full →
      scope.atHome (Name.short r.written) = r.full ∧
        ∀ x ∈ scope.mayHold imports (Name.short r.written), x = r.full

/-- Nothing that may be imported changes what the first segment stands for, and a name of several
segments can be written by its short name. -/
structure IsSafe (classExists : Text → Bool) (scope : NameScope) (imports : List Text)
    (r : TypeRef) : Prop where
  head : Name.isReserved r.written ∨ startsWith "\\" r.written ∨
    ∀ x ∈ scope.mayHold imports (Name.firstSegment r.written),
      x = scope.head (Name.firstSegment r.written)
  short : Name.isNamespaced r.written → r.HasSafeShort classExists scope imports

section
variable {classExists : Text → Bool} {scope : NameScope} {imports : List Text} {r : TypeRef}

lemma hasSafeShort_iff : r.HasSafeShort classExists scope imports ↔
    TypeExpr.isName (Name.short r.written) ∧ Name.isNamespaced (Name.short r.written) = false ∧
      Name.isReserved (Name.short r.written) = false ∧
      (∀ x ∈ scope.imports.values, eqIgnoreCase x r.full →
        scope.importedAs? (Name.short r.written) = some r.full) ∧
      (∀ x ∈ imports, eqIgnoreCase x r.full → x = r.full) ∧
      (classExists (scope.atHome (Name.short r.written)) →
        eqIgnoreCase (scope.atHome (Name.short r.written)) r.full →
          scope.atHome (Name.short r.written) = r.full ∧
            ∀ x ∈ scope.mayHold imports (Name.short r.written), x = r.full) :=
  ⟨fun h => ⟨h.name, h.segment, h.word, h.imported, h.spelled, h.sibling⟩,
    fun ⟨name, segment, word, imported, spelled, sibling⟩ =>
      ⟨name, segment, word, imported, spelled, sibling⟩⟩

instance : Decidable (r.HasSafeShort classExists scope imports) := decidable_of_iff' _ hasSafeShort_iff

lemma isSafe_iff : r.IsSafe classExists scope imports ↔
    (Name.isReserved r.written ∨ startsWith "\\" r.written ∨
      ∀ x ∈ scope.mayHold imports (Name.firstSegment r.written),
        x = scope.head (Name.firstSegment r.written)) ∧
    (Name.isNamespaced r.written → r.HasSafeShort classExists scope imports) :=
  ⟨fun h => ⟨h.head, h.short⟩, fun ⟨head, short⟩ => ⟨head, short⟩⟩

instance : Decidable (r.IsSafe classExists scope imports) := decidable_of_iff' _ isSafe_iff

end

section
variable {classExists : Text → Bool} {scope : NameScope} {imports : List Text} {p : PendingImports}
  {st : ImportState} {w : Text}

/-- What such a name is left as stands for what it stood for. -/
lemma effective_of_head (hfree : p.IsFree scope) (himports : p.names scope ⊆ imports)
    (hhead : Name.isReserved w ∨ startsWith "\\" w ∨
      ∀ x ∈ scope.mayHold imports (Name.firstSegment w), x = scope.head (Name.firstSegment w)) :
    ((ofWritten w).resolveIn (some (scope.withPending p))).effective =
      ((ofWritten w).resolveIn (some scope)).effective := by
  rw [NameScope.effective_resolveIn, NameScope.effective_resolveIn]
  cases hr : Name.isReserved w with
  | true => rfl
  | false =>
    rw [if_neg Bool.false_ne_true, if_neg Bool.false_ne_true]
    cases hroot : startsWith "\\" w with
    | true =>
      obtain ⟨t, rfl⟩ := startsWith_iff.mp hroot
      rfl
    | false =>
      rw [hr, hroot] at hhead
      have hsame := (hhead.resolve_left Bool.false_ne_true).resolve_left Bool.false_ne_true
      rw [NameScope.resolve_eq_head hroot, NameScope.resolve_eq_head hroot]
      refine congrArg (· ++ _) ?_
      change (scope.withPending p).head (Name.firstSegment w) = scope.head (Name.firstSegment w)
      rw [NameScope.head_withPending hfree]
      cases hholder : p.holder? scope (Name.firstSegment w) with
      | some x => exact hsame x (NameScope.mem_mayHold himports hholder)
      | none => exact (PendingImports.head_of_holder?_eq_none hholder).symm

/-- Where the short name is written, it stands at the end for the full name that it was written for. -/
lemma holder?_of_isShort (hscope : scope.IsFull) (hw : TypeExpr.isName w)
    (hn : Name.isNamespaced w) (himports : p.names scope ⊆ imports)
    (hshort : ((ofWritten w).resolveIn (some scope)).IsShort classExists scope st)
    (hwithin : PendingImports.IsWithin scope
      (((ofWritten w).resolveIn (some scope)).shorten classExists scope st).2.pending p)
    (hsafe : ((ofWritten w).resolveIn (some scope)).HasSafeShort classExists scope imports) :
    (p.holder? scope (Name.short w)).getD (scope.atHome (Name.short w)) = scope.resolve w := by
  have hfull := NameScope.full_eq_resolve hscope hw (Name.isReserved_of_isNamespaced hw hn)
  have hst := (isWithin_shorten classExists scope st _).trans hwithin
  obtain ⟨-, hsegment, -, himported, hspelled, hsibling⟩ := hsafe
  rw [written_resolveIn, written_ofWritten] at hsegment himported hsibling
  cases hshort with
  | sibling found same =>
    rw [written_resolveIn, written_ofWritten] at found same
    obtain ⟨hhome, hheld⟩ := hsibling found same
    rw [hfull] at hhome hheld
    cases hholder : p.holder? scope (Name.short w) with
    | none => exact hhome
    | some x => exact hheld x (NameScope.mem_mayHold himports hholder)
  | own missing held same =>
    rw [hfull] at same himported hspelled
    obtain ⟨x, hx, hsame⟩ :=
      NameScope.exists_holder?_of_isShortOwn hscope hw hn hsegment hst same
    have hexact : x = scope.resolve w := by
      rcases PendingImports.of_holder? hx with himport | ⟨-, hmem, -⟩
      · have := himported x (NameScope.mem_values_of_importedAs? himport) hsame
        exact Option.some.inj (himport.symm.trans this)
      · exact hspelled x (himports hmem) hsame
    rw [hx, hexact]
    rfl
  | request missing free =>
    have hstate : (((ofWritten w).resolveIn (some scope)).shorten classExists scope st).2 =
        st.record scope (scope.resolve w) := by
      rw [← hfull]
      rw [written_resolveIn, written_ofWritten] at missing
      simp [shorten, hn, missing, free]
    rw [hstate] at hwithin
    rw [hfull] at free himported
    -- The scope has no import of the class, as that would hold the short name.
    have hnew : ¬∃ x ∈ scope.imports.values, eqIgnoreCase x (scope.resolve w) := by
      rintro ⟨x, hx, hsame⟩
      rw [PendingImports.isShortTaken, Option.isSome_eq_false_iff, Option.isNone_iff_eq_none,
        PendingImports.occupant?_eq, PendingImports.holder?,
        NameScope.short_resolve hn hsegment, himported x hx hsame] at free
      cases free
    rw [NameScope.holder?_of_record hscope hw hn hsegment free hnew hwithin]
    rfl

/-- A safe name stands for what it stood for, whatever was done to it. -/
theorem effective_shorten {r : TypeRef} (looked : r = (ofWritten r.written).resolveIn (some scope))
    (hname : TypeExpr.isName r.written) (hscope : scope.IsFull) (hfree : p.IsFree scope)
    (himports : p.names scope ⊆ imports)
    (hwithin : PendingImports.IsWithin scope (r.shorten classExists scope st).2.pending p)
    (hsafe : r.IsSafe classExists scope imports) :
    ((ofWritten (r.shorten classExists scope st).1.written).resolveIn
      (some (scope.withPending p))).effective = r.effective := by
  generalize r.written = w at looked hname
  subst looked
  obtain ⟨hhead, hshort⟩ := hsafe
  rw [written_resolveIn, written_ofWritten] at hhead hshort
  obtain ⟨-, hsame⟩ | ⟨hn, hisShort, hwritten⟩ := shorten_cases classExists scope
    ((ofWritten w).resolveIn (some scope)) st
  · rw [hsame, written_resolveIn, written_ofWritten]
    exact effective_of_head hfree himports hhead
  · rw [written_resolveIn, written_ofWritten] at hn hwritten
    have hsafe := hshort hn
    have hsegment := hsafe.segment
    have hword := hsafe.word
    rw [written_resolveIn, written_ofWritten] at hsegment hword
    rw [hwritten, NameScope.effective_resolveIn, NameScope.effective_resolveIn, hword,
      Name.isReserved_of_isNamespaced hname hn, if_neg Bool.false_ne_true,
      if_neg Bool.false_ne_true, NameScope.resolve_segment (Name.notMem_short hsegment),
      NameScope.head_withPending hfree]
    exact holder?_of_isShort hscope hname hn himports hisShort hwithin hsafe

end

-- An import under another name, and a word that is reserved.
example :
    let scope := (NameScope.inNamespace (some "App")).importAs "A\\B" "C"
    let safe := fun w : Text => ((ofWritten w).resolveIn (some scope)).IsSafe (fun _ => false) scope []
    safe "\\A\\D" ∧ safe "C" ∧ ¬safe "\\A\\B" ∧ ¬safe "\\A\\Object" := by
  decide +kernel

end TypeRef

/-! One line. -/

namespace Content

variable {ν μ : Type}

/-- The name of a tag, with its type if it has one. -/
def outline : Content ν → Option (Text × Option (TypeExpr ν))
  | .text _ => none
  | .tag t => some (t.name, t.value.typed?.map (·.type))

lemma outline_map (f : ν → μ) (c : Content ν) :
    (c.map f).outline = c.outline.map (Prod.map id (Option.map (·.map f))) := by
  cases c with
  | text s => rfl
  | tag t =>
    obtain ⟨name, value⟩ := t
    cases value <;> rfl

/-- The names are those of the type. -/
lemma names_outline (c : Content ν) :
    c.names = ((c.outline.bind (·.2)).map TypeExpr.names).getD [] := by
  cases c with
  | text s => rfl
  | tag t => exact names_tag t.name t.value

lemma varType?_outline (c : Content ν) :
    c.varType? = c.outline.bind fun o => if o.1 == "@var" then o.2 else none := by
  cases c with
  | text s => rfl
  | tag t =>
    obtain ⟨name, value⟩ := t
    cases value with
    | typed v => rfl
    | plain s => exact (ite_self _).symm
    | malformed s => exact (ite_self _).symm

/-- The type of the tag, if there is one, is read as itself when it is printed. -/
def isFaithful : Content Text → Bool
  | .tag ⟨_, .typed v⟩ => v.type.isReadable && v.type.isGrouped
  | _ => true

end Content

/-- An entry whose type is read as itself comes back with its tag and its type. -/
lemma Renaming.outline_reread {r : Renaming} (h : r.IsRewording) (hfaithful : r.after.written.isFaithful) :
    r.after.reread.outline = r.after.written.outline := by
  cases hu : r.after.isUntouched with
  | true => rw [Entry.reread, if_pos hu]
  | false =>
    obtain ⟨name, v, value, hcontent, hproper, -, hreread, htype⟩ := h.exists_reread hu
    have hafter : r.after.written = .tag ⟨name, .typed (v.map (·.2.written))⟩ := by
      rw [written_after, hcontent]
      rfl
    rw [hafter, Content.isFaithful, Bool.and_eq_true] at hfaithful
    rw [hafter, Content.isReadable, if_pos hfaithful.1,
      (TypeExpr.regroup_eq_self_iff _ hproper).mpr hfaithful.2] at htype
    rw [hreread, hafter, Content.outline, Content.outline, htype]
    rfl

/-- Names that begin with no `$` may take the place of others. -/
lemma Content.isFaithful_map {ν : Type} {f g : ν → Text} {c : Content ν}
    (h : ∀ x ∈ c.names, TypeExpr.isName (g x) ∧
      (TypeExpr.isJoinable (f x) → TypeExpr.isJoinable (g x))) :
    (c.map f).isFaithful → (c.map g).isFaithful := by
  cases c with
  | text s => exact id
  | tag t =>
    obtain ⟨name, value⟩ := t
    cases value with
    | plain s => exact id
    | malformed s => exact id
    | typed v =>
      change (v.type.map f).isReadable && (v.type.map f).isGrouped →
        (v.type.map g).isReadable && (v.type.map g).isGrouped
      rw [Bool.and_eq_true, Bool.and_eq_true, TypeExpr.isGrouped_map f g]
      exact And.imp_left (TypeExpr.isReadable_map h)

/-! One comment. -/

namespace DocSlot

/-- The tags of the comment with their types, by what the names in these stand for. -/
def meaning (s : DocSlot) : List (Option (Text × Option (TypeExpr Text))) :=
  s.contents.map fun c => (c.map (·.effective)).outline

lemma effectiveNames_meaning (s : DocSlot) :
    s.effectiveNames = s.meaning.flatMap fun o => ((o.bind (·.2)).map TypeExpr.names).getD [] := by
  rw [effectiveNames_eq, names_eq, meaning, List.map_flatMap, List.flatMap_map]
  exact List.flatMap_congr fun c _ => by rw [← Content.names_outline, Content.names_map]

lemma varMeaning?_meaning (s : DocSlot) :
    s.varMeaning? = (s.meaning.filterMap fun o =>
      o.bind fun o => if o.1 == "@var" then o.2 else none).head? := by
  rw [varMeaning?, varType?_eq, meaning, List.filterMap_map, ← List.head?_map, List.map_filterMap]
  refine congrArg List.head? (List.filterMap_congr fun c _ => ?_)
  rw [Function.comp_apply, ← Content.varType?_outline, Content.varType?_map]

/-- All types of the comment are read as themselves when they are printed, and all names are safe. -/
structure IsSafe (classExists : Text → Bool) (scope : NameScope) (imports : List Text)
    (s : DocSlot) : Prop where
  faithful : ∀ c ∈ s.contents, (c.map (·.written)).isFaithful
  safe : ∀ r ∈ s.names, r.IsSafe classExists scope imports

variable {classExists : Text → Bool} {scope : NameScope} {imports : List Text} {s s' : DocSlot}

/-- The names of such a comment are cut at their last backslash, and something follows it. -/
lemma IsSafe.isWhole (h : s.IsSafe classExists scope imports) : s.IsWhole := by
  intro r hr
  cases hn : Name.isNamespaced r.written with
  | false => exact Name.isNamespaced_short hn
  | true => exact ((h.safe r hr).short hn).segment

/-- Shortened, such a comment has the tags and types it had, and they stand for the same. -/
theorem IsImport.meaning_eq {p : PendingImports} (h : s.IsImport classExists scope p s')
    (hscope : s.scope = some scope) (htidy : s.IsTidy) (hfull : scope.IsFull)
    (hfree : p.IsFree scope) (himports : p.names scope ⊆ imports)
    (hsafe : s.IsSafe classExists scope imports) : (s'.withPending p).meaning = s.meaning := by
  obtain ⟨rs, hbefore, hafter, hrs, hsteps⟩ := h.exists_renamings hscope htidy
  rw [meaning, meaning, hafter, hbefore, List.map_map, List.map_map]
  refine List.map_congr_left fun r hr => ?_
  have hshort := hrs r hr
  -- Every name of the line is safe, and stands at the end for what it stood for.
  have hnames : ∀ x ∈ r.content.names, x.1.IsSafe classExists scope imports := fun x hx =>
    hsafe.safe x.1 (mem_names_of_renamings hbefore hr hx)
  have heffective : ∀ x ∈ r.content.names, ((TypeRef.ofWritten x.2.written).resolveIn
      (some (scope.withPending p))).effective = x.1.effective := by
    intro x hx
    obtain ⟨st, hx₂, hwithin⟩ := hsteps r hr x hx
    rw [hx₂]
    exact TypeRef.effective_shorten (hshort.looked x hx)
      (Renaming.isWord_of_isShortening hshort x hx).1 hfull hfree himports hwithin (hnames x hx)
  have hfaithful : r.after.written.isFaithful := by
    have hold : (r.content.map (·.1.written)).isFaithful := by
      have := hsafe.faithful (r.content.map Prod.fst) (hbefore ▸ List.mem_map_of_mem hr)
      rwa [Content.map_map] at this
    rw [Renaming.written_after]
    refine Content.isFaithful_map (fun x hx => ?_) hold
    have hname := (Renaming.isWord_of_isShortening hshort x hx).1
    rcases hshort.short x hx with heq | ⟨heq, hn⟩
    · rw [heq]
      exact ⟨hname, id⟩
    · rw [heq]
      exact ⟨((hnames x hx).short hn).name, fun _ => Name.isJoinable_short hname hn⟩
  simp only [Function.comp_apply, Content.map_map]
  calc (r.after.reread.map fun w => ((TypeRef.ofWritten w).resolveIn
        (some (scope.withPending p))).effective).outline
      = (r.after.written.map fun w => ((TypeRef.ofWritten w).resolveIn
        (some (scope.withPending p))).effective).outline := by
        rw [Content.outline_map, Content.outline_map, Renaming.outline_reread hshort.isRewording hfaithful]
    _ = (r.content.map fun x => ((TypeRef.ofWritten x.2.written).resolveIn
        (some (scope.withPending p))).effective).outline := by
        rw [Renaming.written_after, Content.map_map]
        rfl
    _ = (r.content.map (·.1.effective)).outline :=
        congrArg _ (Content.map_congr heffective)

lemma keepsMeaning_of_meaning (h : s'.meaning = s.meaning) : s.KeepsMeaning s' := by
  rw [KeepsMeaning, effectiveNames_meaning, effectiveNames_meaning, h]
  exact List.forall₂_same.mpr fun x _ => eqIgnoreCase_refl x

lemma varMeaning?_of_meaning (h : s'.meaning = s.meaning) : s.varMeaning? = s'.varMeaning? := by
  rw [varMeaning?_meaning, varMeaning?_meaning, h]

/-- Of a comment whose names are safe from what is pending and from what they ask for, every name
stands for what it stood for. -/
theorem meaning_importNames (classExists : Text → Bool) (hscope : s.scope = some scope)
    (htidy : s.IsTidy) (hfull : scope.IsFull) {st : ImportState} (hfree : st.pending.IsFree scope)
    (hsafe : s.IsSafe classExists scope
      (st.pending.names scope ++ TypeRef.importsFor classExists scope s.names)) :
    let run := s.importNames classExists st
    (run.1.1.withPending run.2.pending).meaning = s.meaning := by
  obtain ⟨hlast, -, himport, hnames⟩ := isImport_importNames classExists hscope htidy hfree
  exact himport.meaning_eq hscope htidy hfull hlast
    (hnames _ (List.subset_append_left _ _) (List.subset_append_right _ _)) hsafe

/-! Comments whose `@var` tag was set. -/

section
variable {types : TypeSet} (htidy : s.IsTidy) (hl : ∀ n ∈ types.toList, n.IsListable)
include htidy hl

/-- Every name of the comment then was there before, or is one of the set. -/
lemma of_mem_names_changeVar {r : TypeRef} (h : r ∈ (s.changeVar types).1.names) :
    r ∈ s.names ∨ ∃ n ∈ types.toList, r = (TypeRef.ofWritten n.core).resolveIn s.scope := by
  rw [names_eq, List.mem_flatMap] at h
  obtain ⟨c, hc, hr⟩ := h
  rcases mem_contents_changeVar htidy hl hc with hc | ⟨-, rfl⟩
  · rw [names_eq]
    exact .inl (List.mem_flatMap.mpr ⟨c, hc, hr⟩)
  · have hnames : (Content.tag ⟨"@var".toList, .typed (.ofType types.asType)⟩).names =
        types.toList.map TypeName.core := TypeSet.names_asType types
    rw [Content.lookedUp, Content.names_map, hnames, List.map_map] at hr
    obtain ⟨n, hn, rfl⟩ := List.mem_map.mp hr
    exact .inr ⟨n, hn, rfl⟩

lemma IsSafe.changeVar (hscope : s.scope = some scope) (h : s.IsSafe classExists scope imports)
    (hfound : ∀ n ∈ types.toList,
      ((TypeRef.ofWritten n.core).resolveIn (some scope)).IsSafe classExists scope imports) :
    (s.changeVar types).1.IsSafe classExists scope imports := by
  refine ⟨fun c hc => ?_, fun r hr => ?_⟩
  · rcases mem_contents_changeVar htidy hl hc with hc | ⟨hne, rfl⟩
    · exact h.faithful c hc
    · have hlisted : ∀ n ∈ types.toList, n.IsListed := fun n hn => TypeName.isListed (hl n hn)
      obtain ⟨-, -, hreadable, hgrouped⟩ :=
        TypeExpr.isReadable_joined (TypeSet.isPlain_asType hlisted) (by simpa using hne)
      rw [Content.map_written_lookedUp]
      exact Bool.and_eq_true_iff.mpr ⟨hreadable, hgrouped⟩
  · rcases of_mem_names_changeVar htidy hl hr with hr | ⟨n, hn, rfl⟩
    · exact h.safe r hr
    · rw [hscope]
      exact hfound n hn

end

end DocSlot
end DocTypes
