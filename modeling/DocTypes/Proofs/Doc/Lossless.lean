import DocTypes.Proofs.Doc.Edits
import DocTypes.Proofs.Doc.SetTag
import DocTypes.Proofs.Import.Run
import Mathlib.Logic.Function.Iterate

/-!
Comments that are printed as they were read. A tree that was read counts as unchanged however often
its names are looked up, so an edit that meets nothing to change leaves the comment alone.
-/
namespace DocTypes
open Text

variable {ν μ : Type}

/-! Replacing names. Only the names that occur matter. -/

namespace TypeExpr

lemma map_congr {f g : ν → μ} {t : TypeExpr ν} (h : ∀ n ∈ t.names, f n = g n) :
    t.map f = t.map g := by
  have hlist : ∀ ts : List (TypeExpr ν), (∀ t ∈ ts, (∀ n ∈ t.names, f n = g n) → t.map f = t.map g) →
      (∀ n ∈ namesList ts, f n = g n) → mapList f ts = mapList g ts := by
    intro ts ih h
    rw [mapList_eq, mapList_eq]
    refine List.map_congr_left fun t ht => ih t ht fun n hn => h n ?_
    rw [namesList_eq]
    exact List.mem_flatMap.mpr ⟨t, ht, hn⟩
  induction t with
  | name n => rw [map, map, h n (by simp [names])]
  | nullable t ih => rw [map, map, ih h]
  | array t ih => rw [map, map, ih h]
  | union ts ih => rw [map, map, hlist ts ih h]
  | intersection ts ih => rw [map, map, hlist ts ih h]
  | generic b ts ih =>
    rw [map, map, h b (by simp [names]), hlist ts ih fun n hn => h n (by simp [names, hn])]

end TypeExpr

namespace Content

lemma map_congr {f g : ν → μ} {c : Content ν} (h : ∀ n ∈ c.names, f n = g n) :
    c.map f = c.map g := by
  cases c with
  | text s => rfl
  | tag t =>
    obtain ⟨name, value⟩ := t
    cases value with
    | plain s => rfl
    | malformed s => rfl
    | typed v =>
      have := TypeExpr.map_congr (t := v.type) h
      simp [map, Tag.map, TagValue.map, TypedValue.map, this]

/-- Replacements that leave every name alone leave the content alone. -/
lemma map_eq_self {f : ν → ν} {c : Content ν} (h : ∀ n ∈ c.names, f n = n) : c.map f = c :=
  (map_congr h).trans (map_id c)

end Content

/-- Replacements that leave every name and the state alone. -/
lemma Steps.eq_of_forall_fixed {σ : Type} {f : ν → StateM σ ν} {st st' : σ} {ps : List (ν × ν)}
    (hs : Steps f st ps st') (h : ∀ p ∈ ps, f p.1 st = (p.1, st)) :
    st' = st ∧ ∀ p ∈ ps, p.2 = p.1 := by
  induction hs with
  | nil => simp
  | @cons st st' n ps _ ih =>
    have hn : f n st = (n, st) := h (n, (f n st).1) (by simp)
    rw [hn] at ih
    obtain ⟨hst, hps⟩ := ih fun p hp => h p (by simp [hp])
    exact ⟨hst, List.forall_mem_cons.mpr ⟨congrArg Prod.fst hn, hps⟩⟩

namespace DocTree

lemma mapContents_congr {f g : Content TypeRef → Content TypeRef} {d : DocTree}
    (h : ∀ e ∈ d.entries, f e.content = g e.content) : d.mapContents f = d.mapContents g := by
  have : d.entries.map (fun e => { e with content := f e.content }) =
      d.entries.map fun e => { e with content := g e.content } :=
    List.map_congr_left fun e he => congrArg (Entry.mk · e.origin) (h e he)
  rw [mapContents, mapContents, this]

lemma mapContents_eq_self {f : Content TypeRef → Content TypeRef} {d : DocTree}
    (h : ∀ e ∈ d.entries, f e.content = e.content) : d.mapContents f = d := by
  have : d.entries.map (fun e => { e with content := f e.content }) = d.entries :=
    (List.map_congr_left fun e he => congrArg (Entry.mk · e.origin) (h e he)).trans (List.map_id _)
  rw [mapContents, this]

lemma mapTags_eq_self {f : Tag TypeRef → Tag TypeRef} {d : DocTree} (h : ∀ t ∈ d.tags, f t = t) :
    d.mapTags f = d := by
  refine mapContents_eq_self fun e he => ?_
  cases hc : e.content with
  | text s => rfl
  | tag t => exact congrArg Content.tag (h t (mem_tags.mpr ⟨e, he, hc⟩))

lemma mapNames_eq_self {f : TypeRef → TypeRef} {d : DocTree} (h : ∀ r ∈ d.names, f r = r) :
    d.mapNames f = d :=
  mapContents_eq_self fun e he =>
    Content.map_eq_self fun r hr => h r (List.mem_flatMap.mpr ⟨e, he, hr⟩)

lemma filter_entries_eq_self {unwanted : Entry → Bool} {d : DocTree}
    (h : ∀ e ∈ d.entries, unwanted e = false) :
    { d with entries := d.entries.filter (!unwanted ·) } = d := by
  have : d.entries.filter (!unwanted ·) = d.entries :=
    List.filter_eq_self.mpr fun e he => by rw [h e he, Bool.not_false]
  rw [this]

lemma shorten_eq_self {classExists : Text → Bool} {scope : NameScope} {d : DocTree}
    {st : ImportState} (h : ∀ r ∈ d.names, r.shorten classExists scope st = (r, st)) :
    d.shorten classExists scope st = (d, st) := by
  obtain ⟨rs, hbefore, hafter, hsteps⟩ := d.exists_shorten classExists scope st
  have hnames := names_of_entries Prod.fst hbefore
  obtain ⟨hstate, hsame⟩ := hsteps.eq_of_forall_fixed fun p hp =>
    h p.1 (hnames ▸ List.mem_map_of_mem hp)
  have hentries : rs.map Renaming.after = d.entries := by
    rw [hbefore]
    refine List.map_congr_left fun r hr => ?_
    rw [Renaming.after, Renaming.before, Content.map_congr fun p hp =>
      hsame p (List.mem_flatMap.mpr ⟨r, hr, hp⟩)]
  rw [hentries] at hafter
  exact Prod.ext hafter hstate

/-! What counts as unchanged. -/

lemma isUnchanged_iff {d : DocTree} : d.isUnchanged ↔ d.entries.length = d.readCount ∧
    ∀ i (e : Entry), d.entries[i]? = some e →
      ∃ o : Origin, e.origin = some o ∧ o.index = i ∧ o.content = e.written := by
  simp only [isUnchanged, Bool.and_eq_true, beq_iff_eq, List.all_eq_true,
    List.mem_zipIdx_iff_getElem?, Prod.forall]
  refine and_congr_right fun _ => ⟨fun h i e he => ?_, fun h e i he => ?_⟩
  · obtain ⟨hu, hi⟩ := h e i he
    obtain ⟨o, ho, hc⟩ := Entry.isUntouched_iff.mp hu
    rw [ho] at hi
    exact ⟨o, ho, by simpa using hi, hc⟩
  · obtain ⟨o, ho, hi, hc⟩ := h i e he
    exact ⟨Entry.isUntouched_iff.mpr ⟨o, ho, hc⟩, by simp [ho, hi]⟩

/-- Whatever the text, each entry that was read knows its place and holds what was read. -/
theorem isUnchanged_read (s : Text) : (read s).isUnchanged := by
  obtain ⟨f, lines, hlines⟩ := exists_read_eq_ofLines s
  rw [hlines, isUnchanged_iff]
  refine ⟨by simp [ofLines], fun i e he => ?_⟩
  simp only [ofLines, List.getElem?_mapIdx] at he
  obtain ⟨l, -, rfl⟩ := Option.map_eq_some_iff.mp he
  exact ⟨⟨i, l.line, l.content⟩, rfl, rfl, (written_entry l i).symm⟩

/-- What is known of the names besides their text does not count as a change. -/
lemma isUnchanged_mapNames {g : TypeRef → TypeRef} {d : DocTree}
    (hg : ∀ r ∈ d.names, (g r).written = r.written) (h : d.isUnchanged) :
    (d.mapNames g).isUnchanged := by
  rw [isUnchanged_iff] at h ⊢
  obtain ⟨hlen, hall⟩ := h
  refine ⟨(List.length_map _).trans hlen, fun i e he => ?_⟩
  rw [mapNames, mapContents, List.getElem?_map] at he
  obtain ⟨e₀, he₀, rfl⟩ := Option.map_eq_some_iff.mp he
  obtain ⟨o, ho, hi, hc⟩ := hall i e₀ he₀
  have hsame : (e₀.content.map g).map TypeRef.written = e₀.written := by
    rw [Content.map_map]
    exact Content.map_congr fun r hr =>
      hg r (List.mem_flatMap.mpr ⟨e₀, List.mem_of_getElem? he₀, hr⟩)
  exact ⟨o, ho, hi, hc.trans hsame.symm⟩

lemma isUnchanged_resolveIn (scope : Option NameScope) {d : DocTree} (h : d.isUnchanged) :
    (d.resolveIn scope).isUnchanged :=
  isUnchanged_mapNames (fun r _ => TypeRef.written_resolveIn scope r) h

end DocTree

/-! Comments. -/

namespace DocComment

lemma isUnchanged_iterate_resolve {c : DocComment} (h : c.tree.isUnchanged) (n : Nat) :
    (resolve^[n] c).tree.isUnchanged ∧ (resolve^[n] c).source = c.source := by
  induction n with
  | zero => exact ⟨h, rfl⟩
  | succ n ih =>
    rw [Function.iterate_succ_apply']
    exact ⟨DocTree.isUnchanged_resolveIn _ ih.1, ih.2⟩

/-- A comment is printed as it was read, however often its names are looked up. -/
theorem print_iterate_resolve_read (text : Text) (scope : Option NameScope) (n : Nat) :
    (resolve^[n] (.read text scope)).print = text := by
  obtain ⟨hu, hsource⟩ := isUnchanged_iterate_resolve (c := .read text scope)
    (DocTree.isUnchanged_resolveIn scope (DocTree.isUnchanged_read text)) n
  rw [print, DocTree.print, if_pos hu, hsource]
  rfl

end DocComment

namespace DocSlot

variable {text : Text} {scope : Option NameScope}

lemma writeBack_of_isUnchanged (hne : text ≠ []) {d : DocTree} (h : d.isUnchanged) :
    (⟨some text, scope⟩ : DocSlot).writeBack ⟨d, text, scope⟩ = (⟨some text, scope⟩, false) := by
  have hprint : DocComment.print ⟨d, text, scope⟩ = text := if_pos h
  rw [writeBack_of_ne_nil rfl (by rwa [hprint]), hprint, beq_self_eq_true]
  rfl

lemma editTree_of_isUnchanged (hne : text ≠ []) {f : DocTree → DocTree}
    (h : (f ((DocTree.read text).resolveIn scope)).isUnchanged) :
    editTree f ⟨some text, scope⟩ = (⟨some text, scope⟩, false) :=
  writeBack_of_isUnchanged hne h

lemma editTree_eq_self (hne : text ≠ []) {f : DocTree → DocTree}
    (h : f ((DocTree.read text).resolveIn scope) = (DocTree.read text).resolveIn scope) :
    editTree f ⟨some text, scope⟩ = (⟨some text, scope⟩, false) := by
  refine editTree_of_isUnchanged hne ?_
  rw [h]
  exact DocTree.isUnchanged_resolveIn scope (DocTree.isUnchanged_read text)

/-- An edit that leaves alone what is printed after it changes nothing the second time. -/
lemma editTree_editTree {f : DocTree → DocTree} {s : DocSlot}
    (h : ∀ text, s.text = some text →
      let printed := (f ((DocTree.read text).resolveIn s.scope)).print text
      printed ≠ [] → (f ((DocTree.read printed).resolveIn s.scope)).isUnchanged) :
    (s.editTree f).1.editTree f = ((s.editTree f).1, false) := by
  obtain ⟨_ | text, scope⟩ := s
  · rfl
  have hs : (editTree f ⟨some text, scope⟩).1 = _ :=
    fst_writeBack (s := ⟨some text, scope⟩) rfl ⟨f ((DocTree.read text).resolveIn scope), text, scope⟩
  rw [hs]
  by_cases hprint : (f ((DocTree.read text).resolveIn scope)).print text = []
  · rw [DocComment.print, if_pos hprint]
    rfl
  · rw [DocComment.print, if_neg hprint]
    exact editTree_of_isUnchanged hprint (h text rfl hprint)

lemma isParamEntry_eq_false {param : Text} {e : Entry}
    (h : ∀ t, e.content = .tag t → t.name = "@param" →
      (∀ v, t.value = .typed v → v.variableName ≠ some param) ∧
        ∀ raw, t.value = .malformed raw → firstWord raw ≠ param) : isParamEntry param e = false := by
  rw [isParamEntry]
  cases hc : e.content with
  | text s => rfl
  | tag t =>
    rw [Bool.and_eq_false_iff]
    by_cases hn : t.name = "@param".toList
    · obtain ⟨htyped, hraw⟩ := h t hc hn
      right
      cases hv : t.value with
      | typed v => simpa using htyped v hv
      | malformed raw => simpa using hraw raw hv
      | plain s => rfl
    · exact .inl (by simpa using hn)

lemma replaceType_of_absent {isSubtype : Text → Text → Bool} {old : Text} (new : Text) {d : DocTree}
    (h : ∀ t ∈ d.tags, Tag.bearsType t.name → ∀ v, t.value = .typed v → ∀ r ∈ v.type.names,
      r.isReplaceable isSubtype (Name.unrooted old) = false) :
    d.replaceType isSubtype old new scope = d.resolveIn scope := by
  rw [DocTree.replaceType]
  refine congrArg (DocTree.resolveIn scope) (DocTree.mapTags_eq_self fun t ht => ?_)
  split
  · rename_i hbears
    obtain ⟨name, value⟩ := t
    have := Content.map_eq_self (c := .tag ⟨name, value⟩) (f := fun r =>
      if r.isReplaceable isSubtype (Name.unrooted old) then
        .ofWritten (if new.contains '\\' then Name.rooted new else new) else r) fun r hr => by
      cases value with
      | plain s => cases hr
      | malformed s => cases hr
      | typed v => rw [h _ ht hbears v rfl r hr, if_neg (by decide)]
    exact Content.tag.inj this
  · rfl

/-! Edits that meet nothing to change. -/

section
variable (hne : text ≠ [])
include hne

lemma removeTag_eq_self {name : Text}
    (h : ∀ t ∈ ((DocTree.read text).resolveIn scope).tags, t.name ≠ Tag.normalName name) :
    removeTag name ⟨some text, scope⟩ = (⟨some text, scope⟩, false) := by
  refine editTree_eq_self hne (DocTree.filter_entries_eq_self fun e he => ?_)
  rw [Entry.isTagNamed]
  split
  · simpa using h _ (DocTree.mem_tags.mpr ⟨e, he, ‹_›⟩)
  · rfl

lemma renameTag_eq_self {old : Text} (new : Text)
    (h : ∀ t ∈ ((DocTree.read text).resolveIn scope).tags, t.name ≠ Tag.normalName old) :
    renameTag old new ⟨some text, scope⟩ = (⟨some text, scope⟩, false) :=
  editTree_eq_self hne (DocTree.mapTags_eq_self fun t ht => if_neg (h t ht))

lemma removeParam_eq_self {name : Text}
    (h : ∀ t ∈ ((DocTree.read text).resolveIn scope).tags, t.name = "@param" →
      (∀ v, t.value = .typed v → v.variableName ≠ some ('$' :: name.dropWhile (· == '$'))) ∧
        ∀ raw, t.value = .malformed raw → firstWord raw ≠ '$' :: name.dropWhile (· == '$')) :
    removeParam name ⟨some text, scope⟩ = (⟨some text, scope⟩, false) := by
  rw [removeParam]
  refine editTree_eq_self hne (DocTree.filter_entries_eq_self fun e he => ?_)
  exact isParamEntry_eq_false fun t hc => h t (DocTree.mem_tags.mpr ⟨e, he, hc⟩)

lemma changeTypeOrSubtypes_eq_self {isSubtype : Text → Text → Bool} {old : Text} (new : Text)
    (h : ∀ t ∈ ((DocTree.read text).resolveIn scope).tags, Tag.bearsType t.name → ∀ v,
      t.value = .typed v → ∀ r ∈ v.type.names,
        r.isReplaceable isSubtype (Name.unrooted old) = false) :
    changeTypeOrSubtypes isSubtype old new ⟨some text, scope⟩ = (⟨some text, scope⟩, false) := by
  rw [changeTypeOrSubtypes]
  split
  · refine editTree_of_isUnchanged hne ?_
    rw [replaceType_of_absent new h]
    exact DocTree.isUnchanged_resolveIn scope
      (DocTree.isUnchanged_resolveIn scope (DocTree.isUnchanged_read text))
  · rfl

lemma underscoresToNamespaces_eq_self {start : Text} {excluded : List Text}
    (h : ∀ r ∈ ((DocTree.read text).resolveIn scope).names,
      startsWith start (Name.unrooted r.written) → Name.unrooted r.written ∈ excluded) :
    underscoresToNamespaces start excluded ⟨some text, scope⟩ = (⟨some text, scope⟩, false) := by
  refine editTree_eq_self hne (DocTree.mapNames_eq_self fun r hr => if_neg ?_)
  simpa using h r hr

lemma importNames_of_forall_fixed {classExists : Text → Bool} {st : ImportState}
    (h : ∀ r ∈ ((DocTree.read text).resolveIn scope).names,
      r.shorten classExists (scope.getD .global) st = (r, st)) :
    importNames classExists ⟨some text, scope⟩ st = ((⟨some text, scope⟩, st.recorded), st) := by
  have hunchanged := DocTree.isUnchanged_resolveIn scope (DocTree.isUnchanged_read text)
  have hrun : importNames classExists ⟨some text, scope⟩ st =
      let run := ((DocTree.read text).resolveIn scope).shorten classExists (scope.getD .global) st
      (((writeBack ⟨some text, scope⟩ ⟨run.1, text, scope⟩).1, run.2.recorded), run.2) := rfl
  rw [hrun, DocTree.shorten_eq_self h]
  dsimp only
  rw [writeBack_of_isUnchanged hne hunchanged]

lemma importNames_eq_self {classExists : Text → Bool} (st : ImportState)
    (h : ∀ r ∈ ((DocTree.read text).resolveIn scope).names, Name.isNamespaced r.written = false) :
    importNames classExists ⟨some text, scope⟩ st = ((⟨some text, scope⟩, st.recorded), st) :=
  importNames_of_forall_fixed hne fun r hr => by simp [TypeRef.shorten, h r hr]

end

/-- A comment is printed as it was read, and an edit that meets nothing to change leaves the comment
alone: there is no tag of the name, none of the parameter, no name that is to be replaced, none with
the beginning, none with a namespace. -/
theorem print_read_and_edit_eq_self (text : Text) (scope : Option NameScope) :
    (∀ n, (DocComment.resolve^[n] (.read text scope)).print = text) ∧
    (text ≠ [] →
      let s : DocSlot := ⟨some text, scope⟩
      let tree := (DocTree.read text).resolveIn scope
      (∀ name, (∀ t ∈ tree.tags, t.name ≠ Tag.normalName name) →
        s.removeTag name = (s, false)) ∧
      (∀ old new, (∀ t ∈ tree.tags, t.name ≠ Tag.normalName old) →
        s.renameTag old new = (s, false)) ∧
      (∀ name, (∀ t ∈ tree.tags, t.name = "@param" →
          (∀ v, t.value = .typed v → v.variableName ≠ some ('$' :: name.dropWhile (· == '$'))) ∧
            ∀ raw, t.value = .malformed raw → firstWord raw ≠ '$' :: name.dropWhile (· == '$')) →
        s.removeParam name = (s, false)) ∧
      (∀ isSubtype old, (∀ t ∈ tree.tags, Tag.bearsType t.name → ∀ v, t.value = .typed v →
          ∀ r ∈ v.type.names, r.isReplaceable isSubtype (Name.unrooted old) = false) →
        ∀ new, s.changeTypeOrSubtypes isSubtype old new = (s, false)) ∧
      (∀ old, (∀ t ∈ tree.tags, Tag.bearsType t.name → ∀ v, t.value = .typed v →
          ∀ r ∈ v.type.names, r.full ≠ Name.unrooted old) →
        ∀ new, s.changeType old new = (s, false)) ∧
      (∀ start excluded, (∀ r ∈ tree.names, startsWith start (Name.unrooted r.written) →
          Name.unrooted r.written ∈ excluded) →
        s.underscoresToNamespaces start excluded = (s, false)) ∧
      (∀ classExists st, (∀ r ∈ tree.names, Name.isNamespaced r.written = false) →
        s.importNames classExists st = ((s, st.recorded), st))) := by
  refine ⟨DocComment.print_iterate_resolve_read text scope, fun hne => ?_⟩
  intro s tree
  have hchange : ∀ isSubtype old, (∀ t ∈ tree.tags, Tag.bearsType t.name → ∀ v,
      t.value = .typed v → ∀ r ∈ v.type.names,
        r.isReplaceable isSubtype (Name.unrooted old) = false) →
      ∀ new, s.changeTypeOrSubtypes isSubtype old new = (s, false) :=
    fun _ _ h new => changeTypeOrSubtypes_eq_self hne new h
  refine ⟨fun name h => removeTag_eq_self hne h, fun old new h => renameTag_eq_self hne new h,
    fun name h => removeParam_eq_self hne h, hchange, fun old h => ?_, fun start excluded h =>
    underscoresToNamespaces_eq_self hne h, fun classExists st h => importNames_eq_self hne st h⟩
  refine hchange _ old fun t ht hb v hv r hr => ?_
  simp [TypeRef.isReplaceable, h t ht hb v hv r hr]

/-- A comment with both kinds of line ends and no mark that closes it on a line of its own. -/
theorem print_read_and_edit_eq_self_mixed_ends :
    let s : DocSlot := ⟨some "/** @inject\r\n  @param A $a\n*@var B_C*/", none⟩
    (DocComment.resolve^[3] (.read "/** @inject\r\n  @param A $a\n*@var B_C*/" none)).print =
        "/** @inject\r\n  @param A $a\n*@var B_C*/".toList ∧
      s.removeTag "todo" = (s, false) ∧ s.renameTag "todo" "note" = (s, false) ∧
      s.removeParam "b" = (s, false) ∧
      s.changeTypeOrSubtypes (fun _ old => old == "D".toList) "C" "E" = (s, false) ∧
      s.changeType "C" "E" = (s, false) ∧ s.underscoresToNamespaces "A_" [] = (s, false) ∧
      s.importNames (fun _ => true) ∅ = ((s, []), ∅) := by
  intro s
  have htags : ((DocTree.read "/** @inject\r\n  @param A $a\n*@var B_C*/").resolveIn none).tags =
      [⟨"@inject", .plain []⟩, ⟨"@param", .typed ⟨.name ⟨"A", some "A", ["A"]⟩, some "$a", []⟩⟩,
        ⟨"@var", .typed ⟨.name ⟨"B_C", some "B_C", ["B_C"]⟩, none, []⟩⟩] := by
    decide +kernel
  obtain ⟨hprint, hedits⟩ :=
    print_read_and_edit_eq_self "/** @inject\r\n  @param A $a\n*@var B_C*/" none
  obtain ⟨hremove, hrename, hparam, hsubtypes, hchange, hunderscores, himport⟩ :=
    hedits (by decide)
  rw [htags] at hremove hrename hparam hsubtypes hchange
  refine ⟨hprint 3, hremove _ (by decide), hrename _ _ (by decide), hparam _ ?_, hsubtypes _ _ ?_ _,
    hchange _ ?_ _, hunderscores _ _ (by decide +kernel), himport _ _ (by decide +kernel)⟩
  · simp
  · simp only [List.mem_cons, List.not_mem_nil, or_false, forall_eq_or_imp, forall_eq, reduceCtorEq,
      IsEmpty.forall_iff, implies_true, TagValue.typed.injEq, forall_eq', TypeExpr.names, true_and]
    decide +kernel
  · simp only [List.mem_cons, List.not_mem_nil, or_false, forall_eq_or_imp, forall_eq, reduceCtorEq,
      IsEmpty.forall_iff, implies_true, TagValue.typed.injEq, forall_eq', TypeExpr.names, true_and]
    decide +kernel

end DocSlot
end DocTypes
