import DocTypes.Proofs.Doc.Lossless
import DocTypes.Proofs.Import.Meaning
import DocTypes.Proofs.Import.Pending

/-!
Shortening the names of a comment once more, in the scope that has all imports. Where the names stand
for the same classes nothing is left to shorten, and the comment stays as it is.
-/
namespace DocTypes
open Text

/-! The state along a run. -/

/-- Every name of a run is replaced in a state whose imports are pending at the end. -/
lemma Steps.isFree {classExists : Text → Bool} {scope : NameScope} {st st' : ImportState}
    {ps : List (TypeRef × TypeRef)} (h : Steps (TypeRef.shorten classExists scope) st ps st')
    (hfree : st.pending.IsFree scope) :
    st'.pending.IsFree scope ∧ PendingImports.IsWithin scope st.pending st'.pending ∧
      ∀ p ∈ ps, ∃ st₁ : ImportState, p.2 = (p.1.shorten classExists scope st₁).1 ∧
        PendingImports.IsWithin scope (p.1.shorten classExists scope st₁).2.pending
          st'.pending := by
  induction h with
  | nil st => exact ⟨hfree, PendingImports.isWithin_refl scope st.pending, by simp⟩
  | @cons st st' n ps _ ih =>
    have hwithin := TypeRef.isWithin_shorten classExists scope st n
    obtain ⟨hlast, hlater, hall⟩ := ih (TypeRef.isFree_shorten hfree classExists n)
    exact ⟨hlast, hwithin.trans hlater, List.forall_mem_cons.mpr ⟨⟨st, rfl, hlater⟩, hall⟩⟩

/-- A run asks for nothing but what its names may ask for. -/
lemma Steps.names_subset {classExists : Text → Bool} {scope : NameScope} {st st' : ImportState}
    {ps : List (TypeRef × TypeRef)} (h : Steps (TypeRef.shorten classExists scope) st ps st')
    {imports : List Text} (hst : st.pending.names scope ⊆ imports)
    (hps : TypeRef.importsFor classExists scope (ps.map Prod.fst) ⊆ imports) :
    st'.pending.names scope ⊆ imports := by
  induction h with
  | nil st => exact hst
  | @cons st st' n ps _ ih =>
    have hsplit : TypeRef.importsFor classExists scope (n :: ps.map Prod.fst) =
        TypeRef.importsFor classExists scope [n] ++
          TypeRef.importsFor classExists scope (ps.map Prod.fst) := by
      rw [← List.singleton_append, TypeRef.importsFor, List.filter_append, List.map_append]
      rfl
    rw [List.map_cons] at hps
    change TypeRef.importsFor classExists scope (n :: ps.map Prod.fst) ⊆ imports at hps
    rw [hsplit, List.append_subset] at hps
    refine ih (List.Subset.trans (TypeRef.names_shorten_subset classExists scope st n) ?_) hps.2
    exact List.append_subset.mpr ⟨hst, hps.1⟩

/-! One comment. -/

namespace DocSlot

/-- What is printed anew in the usual frame is a tidy comment. -/
lemma isTidy_print {d : DocTree} {source : Text} (hf : d.frame.IsUsual)
    (hu : d.isUnchanged = false) (hb : d.isBlank = false) (scope : Option NameScope) :
    (⟨some (d.print source), scope⟩ : DocSlot).IsTidy := by
  intro text ht
  obtain rfl : d.print source = text := Option.some.inj ht
  exact DocTree.isDocComment_print_usual hf hu hb source

/-- Setting a tag leaves a tidy comment. -/
lemma isTidy_setTag {s : DocSlot} (h : s.IsTidy) (t : Tag Text) : (s.setTag t).1.IsTidy := by
  obtain ⟨d, source, hf, -, hset⟩ := exists_setTag h t
  obtain ⟨hframe, es, fs, hd, -⟩ := DocTree.exists_entries_putTag t d
  rw [hset]
  exact isTidy_print (hframe ▸ hf) (DocTree.isUnchanged_of_new hd) (DocTree.isBlank_of_new hd) _

lemma isTidy_changeVar {s : DocSlot} (h : s.IsTidy) (types : TypeSet) :
    (s.changeVar types).1.IsTidy := by
  rw [changeVar]
  split
  · exact h
  · exact isTidy_setTag h _

/-- The names in the types of all tags, with what they stand for. -/
def names (s : DocSlot) : List TypeRef :=
  match s.comment? with
  | some c => c.tree.names
  | none => []

lemma effectiveNames_eq (s : DocSlot) : s.effectiveNames = s.names.map (·.effective) := by
  rw [effectiveNames, names]
  cases s.comment? <;> rfl

lemma names_eq (s : DocSlot) : s.names = s.contents.flatMap Content.names := by
  rw [contents, names]
  cases s.comment? with
  | none => rfl
  | some c => exact (List.flatMap_map ..).symm

/-- The comment as it is left by a run of shortenings whose imports are all pending at the end. -/
def IsImport (classExists : Text → Bool) (scope : NameScope) (p : PendingImports)
    (s s' : DocSlot) : Prop :=
  ∃ st : ImportState, st.pending.IsFree scope ∧ s' = (s.importNames classExists st).1.1 ∧
    PendingImports.IsWithin scope (s.importNames classExists st).2.pending p

variable {classExists : Text → Bool} {scope : NameScope} {s s' : DocSlot}

lemma importNames_none (hs : s.text = none) (classExists : Text → Bool) (st : ImportState) :
    s.importNames classExists st = ((s, []), st) := by
  rw [importNames, comment?, hs]
  rfl

/-- Shortening the names of a comment is a run over them, after which its lines are read as they are
printed now. -/
lemma exists_importNames (hscope : s.scope = some scope) (htidy : s.IsTidy)
    (classExists : Text → Bool) (st : ImportState) : ∃ rs : List Renaming,
      s.contents = rs.map (·.content.map Prod.fst) ∧ (∀ r ∈ rs, r.IsShortening scope) ∧
      Steps (TypeRef.shorten classExists scope) st (rs.flatMap (·.content.names))
        (s.importNames classExists st).2 ∧
      (s.importNames classExists st).1.1.scope = some scope ∧
      (s.importNames classExists st).1.1.IsTidy ∧
      ∀ later, (⟨(s.importNames classExists st).1.1.text, some later⟩ : DocSlot).contents =
        rs.map fun r => r.after.reread.map fun w =>
          (TypeRef.ofWritten w).resolveIn (some later) := by
  obtain ⟨text, scope₀⟩ := s
  obtain rfl : scope₀ = some scope := hscope
  cases text with
  | none => exact ⟨[], rfl, nofun, .nil st, rfl, htidy, fun _ => rfl⟩
  | some text =>
    obtain ⟨hs, hd⟩ := htidy text rfl
    obtain ⟨rs, hbefore, hafter, horigin, hrs, hsteps⟩ :=
      DocTree.exists_isShortening_steps hd classExists scope st
    obtain ⟨hne, hread⟩ := DocTree.written_read_print_shorten hs hd scope hafter horigin hrs
    have hrun : importNames classExists ⟨some text, some scope⟩ st =
        let run := ((DocTree.read text).resolveIn (some scope)).shorten classExists scope st
        (((writeBack ⟨some text, some scope⟩ ⟨run.1, text, some scope⟩).1, run.2.recorded), run.2) :=
      rfl
    generalize ((DocTree.read text).resolveIn (some scope)).shorten classExists scope st = run at *
    obtain ⟨short, st'⟩ := run
    have hresult : importNames classExists ⟨some text, some scope⟩ st =
        ((⟨some (short.print text), some scope⟩, st'.recorded), st') := by
      rw [hrun]
      exact congrArg (fun slot : DocSlot => ((slot, st'.recorded), st')) (congrArg Prod.fst
        (writeBack_of_ne_nil (c := ⟨short, text, some scope⟩) rfl hne))
    rw [hresult]
    have hcontents : contents ⟨some text, some scope⟩ = rs.map (·.content.map Prod.fst) := by
      have := congrArg (List.map (·.content)) hbefore
      rwa [List.map_map] at this
    refine ⟨rs, hcontents, fun r hr => (hrs r hr).1, hsteps, rfl, ?_, fun later => ?_⟩
    · cases hu : short.isUnchanged with
      | true =>
        have : short.print text = text := if_pos hu
        dsimp only
        rw [this]
        exact htidy
      | false =>
        have hframe : short.frame = (DocTree.read text).frame := by
          rw [show short = _ from hafter]
          rfl
        exact isTidy_print (hframe ▸ (DocTree.isUsual_read hs hd).1) hu
          (DocTree.isBlank_shorten scope hafter horigin hrs hu) _
    · have := DocTree.contents_resolveIn_read (some later) (short.print text)
      rwa [hread, List.map_map] at this

/-- The names of a comment are those of the renamings that it was made of. -/
lemma names_of_renamings {rs : List Renaming}
    (hbefore : s.contents = rs.map (·.content.map Prod.fst)) :
    s.names = (rs.flatMap (·.content.names)).map Prod.fst := by
  rw [names_eq, hbefore, List.flatMap_map, List.map_flatMap]
  exact List.flatMap_congr fun r _ => Content.names_map _ _

lemma mem_names_of_renamings {rs : List Renaming} {r : Renaming} {x : TypeRef × TypeRef}
    (hbefore : s.contents = rs.map (·.content.map Prod.fst)) (hr : r ∈ rs)
    (hx : x ∈ r.content.names) : x.1 ∈ s.names := by
  rw [names_of_renamings hbefore]
  exact List.mem_map_of_mem (List.mem_flatMap.mpr ⟨r, hr, hx⟩)

/-- Where no name was lost, every type that was changed can be read again. -/
lemma isReadable_of_length {rs : List Renaming} (hrs : ∀ r ∈ rs, r.IsShortening scope)
    (hlen : (rs.flatMap (·.after.reread.names)).length = (rs.flatMap (·.content.names)).length) :
    ∀ r ∈ rs, r.after.isUntouched || r.after.written.isReadable := by
  have hreread : rs.flatMap (·.after.reread.names) =
      rs.flatMap fun r => if r.after.isUntouched || r.after.written.isReadable then
        r.content.names.map (·.2.written) else [] :=
    List.flatMap_congr fun r hr => (hrs r hr).isRewording.names_reread.2.1
  have hpresent := (length_flatMap_present (fun p : TypeRef × TypeRef => p) (·.2.written)
    fun r hr => (hrs r hr).isRewording.names_reread.2.2).2
  simp only [List.map_id'] at hpresent
  rw [hreread] at hlen
  exact hpresent hlen.symm

/-- Every name of the comment stands for the same class in the other, in any case. -/
def KeepsMeaning (s s' : DocSlot) : Prop :=
  List.Forall₂ (fun old new => eqIgnoreCase old new) s.effectiveNames s'.effectiveNames

instance : DecidableRel KeepsMeaning := fun s s' =>
  inferInstanceAs (Decidable (List.Forall₂ (fun old new => eqIgnoreCase old new)
    s.effectiveNames s'.effectiveNames))

/-- No name of the comment ends with a backslash, so that a short name is one segment. -/
def IsWhole (s : DocSlot) : Prop := ∀ r ∈ s.names, Name.isNamespaced (Name.short r.written) = false

instance : DecidablePred IsWhole := fun s =>
  inferInstanceAs (Decidable (∀ r ∈ s.names, Name.isNamespaced (Name.short r.written) = false))

/-- The comment in the scope that has the imports of `p`. -/
def withPending (p : PendingImports) (s : DocSlot) : DocSlot :=
  { s with scope := s.scope.map (·.withPending p) }

lemma IsImport.mono {p q : PendingImports} (h : s.IsImport classExists scope p s')
    (hwithin : PendingImports.IsWithin scope p q) : s.IsImport classExists scope q s' := by
  obtain ⟨st, hfree, heq, hp⟩ := h
  exact ⟨st, hfree, heq, hp.trans hwithin⟩

/-- What is left of a comment is a comment of the same scope. -/
lemma IsImport.isTidy {p : PendingImports} (h : s.IsImport classExists scope p s')
    (hscope : s.scope = some scope) (htidy : s.IsTidy) : s'.scope = some scope ∧ s'.IsTidy := by
  obtain ⟨st, -, rfl, -⟩ := h
  obtain ⟨rs, -, -, -, hs, ht, -⟩ := exists_importNames hscope htidy classExists st
  exact ⟨hs, ht⟩

/-- The names of one comment ask for nothing but short names that are free, each for its own class. -/
lemma isImport_importNames (classExists : Text → Bool) (hscope : s.scope = some scope)
    (htidy : s.IsTidy) {st : ImportState} (hfree : st.pending.IsFree scope) :
    let run := s.importNames classExists st
    run.2.pending.IsFree scope ∧ PendingImports.IsWithin scope st.pending run.2.pending ∧
      s.IsImport classExists scope run.2.pending run.1.1 ∧
      ∀ imports, st.pending.names scope ⊆ imports →
        TypeRef.importsFor classExists scope s.names ⊆ imports →
          run.2.pending.names scope ⊆ imports := by
  intro run
  obtain ⟨rs, hbefore, -, hsteps, -⟩ := exists_importNames hscope htidy classExists st
  obtain ⟨hlast, hwithin, -⟩ := hsteps.isFree hfree
  refine ⟨hlast, hwithin, ⟨st, hfree, rfl, PendingImports.isWithin_refl scope _⟩,
    fun imports hst hnames => hsteps.names_subset hst ?_⟩
  rwa [names_of_renamings hbefore] at hnames

/-- What is left of a comment is read line by line in the scope with the imports, and each of its names
was replaced with the imports at hand that are pending at the end. -/
lemma IsImport.exists_renamings {p : PendingImports} (h : s.IsImport classExists scope p s')
    (hscope : s.scope = some scope) (htidy : s.IsTidy) : ∃ rs : List Renaming,
      s.contents = rs.map (·.content.map Prod.fst) ∧
      ((s'.withPending p).contents = rs.map fun r => r.after.reread.map fun w =>
        (TypeRef.ofWritten w).resolveIn (some (scope.withPending p))) ∧
      (∀ r ∈ rs, r.IsShortening scope) ∧
      ∀ r ∈ rs, ∀ x ∈ r.content.names, ∃ st : ImportState,
        x.2 = (x.1.shorten classExists scope st).1 ∧
        PendingImports.IsWithin scope (x.1.shorten classExists scope st).2.pending p := by
  obtain ⟨hscope', -⟩ := h.isTidy hscope htidy
  obtain ⟨st, hst, rfl, hwithin⟩ := h
  obtain ⟨rs, hbefore, hrs, hsteps, -, -, hlater⟩ := exists_importNames hscope htidy classExists st
  refine ⟨rs, hbefore, ?_, hrs, fun r hr x hx => ?_⟩
  · rw [withPending, hscope', Option.map_some]
    exact hlater (scope.withPending p)
  · obtain ⟨st₁, hx₂, hx₁⟩ := (hsteps.isFree hst).2.2 x (List.mem_flatMap.mpr ⟨r, hr, hx⟩)
    exact ⟨st₁, hx₂, hx₁.trans hwithin⟩

/-- Where every name stands for what it stood for, every type that was changed can be read, and each
name was replaced with the imports at hand that are pending at the end. -/
lemma IsImport.exists_kept {p : PendingImports} (h : s.IsImport classExists scope p s')
    (hscope : s.scope = some scope) (htidy : s.IsTidy)
    (hmeaning : s.KeepsMeaning (s'.withPending p)) : ∃ rs : List Renaming,
      s.contents = rs.map (·.content.map Prod.fst) ∧
      ((s'.withPending p).contents = rs.map fun r => r.after.reread.map fun w =>
        (TypeRef.ofWritten w).resolveIn (some (scope.withPending p))) ∧
      (∀ r ∈ rs, r.IsShortening scope ∧ (r.after.isUntouched || r.after.written.isReadable)) ∧
      ∀ r ∈ rs, ∀ x ∈ r.content.names,
        (∃ st : ImportState, x.2 = (x.1.shorten classExists scope st).1 ∧
          PendingImports.IsWithin scope (x.1.shorten classExists scope st).2.pending p) ∧
        eqIgnoreCase x.1.effective
          ((TypeRef.ofWritten x.2.written).resolveIn (some (scope.withPending p))).effective := by
  obtain ⟨rs, hbefore, hafter, hrs, hsteps⟩ := h.exists_renamings hscope htidy
  rw [KeepsMeaning, effectiveNames_eq, effectiveNames_eq, names_eq, names_eq, hbefore, hafter,
    List.flatMap_map, List.flatMap_map] at hmeaning
  simp only [Content.names_map, ← List.map_flatMap, List.map_map] at hmeaning
  have hreadable := isReadable_of_length hrs <| by
    simpa only [List.length_map] using hmeaning.length_eq.symm
  have hnames : ∀ r ∈ rs, r.after.reread.names = r.content.names.map (·.2.written) :=
    fun r hr => Renaming.names_reread_of_isReadable (hrs r hr) (hreadable r hr)
  rw [List.flatMap_congr hnames, ← List.map_flatMap, List.map_map, forall₂_map_iff] at hmeaning
  exact ⟨rs, hbefore, hafter, fun r hr => ⟨hrs r hr, hreadable r hr⟩, fun r hr x hx =>
    ⟨hsteps r hr x hx, hmeaning x (List.mem_flatMap.mpr ⟨r, hr, hx⟩)⟩⟩

/-- In the scope with the imports there is nothing left to shorten, if every name stands for what it
stood for before. -/
theorem IsImport.importNames_again {p q : PendingImports} (h : s.IsImport classExists scope p s')
    (hscope : s.scope = some scope) (htidy : s.IsTidy) (hfree : p.IsFree scope)
    (hq : q = p ∨ q = ∅) (hwhole : s.IsWhole) (hmeaning : s.KeepsMeaning (s'.withPending p))
    (recorded : List Text) :
    ((s'.withPending p).importNames classExists ⟨q, recorded⟩).1.1 = s'.withPending p ∧
      ((s'.withPending p).importNames classExists ⟨q, recorded⟩).2 = ⟨q, recorded⟩ := by
  obtain ⟨hscope', htidy'⟩ := h.isTidy hscope htidy
  obtain ⟨rs, hbefore, hafter, hrs, hkept⟩ := h.exists_kept hscope htidy hmeaning
  have hslot : s'.withPending p = ⟨s'.text, some (scope.withPending p)⟩ := by
    rw [withPending, hscope']
    rfl
  rw [hslot] at hafter ⊢
  cases htext : s'.text with
  | none =>
    rw [importNames_none rfl]
    exact ⟨rfl, rfl⟩
  | some text =>
    have hne : text ≠ [] := by
      rintro rfl
      exact absurd (htidy' [] htext).1 (by decide)
    have hfixed : importNames classExists ⟨some text, some (scope.withPending p)⟩ ⟨q, recorded⟩ =
        ((⟨some text, some (scope.withPending p)⟩, recorded), ⟨q, recorded⟩) := by
      refine importNames_of_forall_fixed hne fun n hn => ?_
      change n ∈ names ⟨some text, some (scope.withPending p)⟩ at hn
      rw [← htext, names_eq, hafter, List.flatMap_map] at hn
      obtain ⟨r, hr, hn⟩ := List.mem_flatMap.mp hn
      rw [Content.names_map, Renaming.names_reread_of_isReadable (hrs r hr).1 (hrs r hr).2,
        List.map_map] at hn
      obtain ⟨x, hx, rfl⟩ := List.mem_map.mp hn
      obtain ⟨⟨st, hx₂, hwithin⟩, hmeans⟩ := hkept r hr x hx
      refine TypeRef.shorten_again (r := x.1) hfree hq hwithin ?_ ?_ ?_ recorded
      · exact hwhole x.1 (mem_names_of_renamings hbefore hr hx)
      · rw [Function.comp_apply, TypeRef.written_resolveIn, TypeRef.written_ofWritten, hx₂]
      · exact Name.eqIgnoreCase_unrooted hmeans
    rw [hfixed]
    exact ⟨rfl, rfl⟩

end DocSlot
end DocTypes
