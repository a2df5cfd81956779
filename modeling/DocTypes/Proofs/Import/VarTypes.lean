import DocTypes.Proofs.Doc.VarInfo
import DocTypes.Proofs.Import.Aliases
import DocTypes.Proofs.Import.Class

/-!
The type of `@var` in a comment whose names were shortened. Where it stands for what it stood for,
name by name, the same types are listed as before: a short name never reads like an alias among them.
-/
namespace DocTypes
open Text

namespace Content

variable {ν μ : Type}

/-- The type of the line, if it is a `@var` tag with one. -/
def varType? : Content ν → Option (TypeExpr ν)
  | .tag ⟨name, .typed v⟩ => if name == "@var" then some v.type else none
  | _ => none

lemma varType?_map (f : ν → μ) (c : Content ν) : (c.map f).varType? = c.varType?.map (·.map f) := by
  cases c with
  | text s => rfl
  | tag t =>
    obtain ⟨name, value⟩ := t
    cases value with
    | plain s => rfl
    | malformed s => rfl
    | typed v =>
      simp only [map, Tag.map, TagValue.map, TypedValue.map, varType?]
      split <;> rfl

lemma exists_of_varType? {c : Content ν} {t : TypeExpr ν} (h : c.varType? = some t) :
    ∃ v : TypedValue ν, c = .tag ⟨"@var", .typed v⟩ ∧ v.type = t := by
  unfold varType? at h
  split at h
  · rename_i name v
    split at h
    · rename_i hname
      obtain rfl : name = "@var" := by simpa using hname
      exact ⟨v, rfl, Option.some.inj h⟩
    · cases h
  · cases h

end Content

namespace DocSlot

/-- What the names in the type of `@var` stand for, in its shape. -/
def varMeaning? (s : DocSlot) : Option (TypeExpr Text) := s.varType?.map (·.map (·.effective))

lemma varType?_eq (s : DocSlot) : s.varType? = (s.contents.filterMap Content.varType?).head? := by
  rw [varType?, contents]
  cases s.comment? with
  | none => rfl
  | some c =>
    have key : ∀ es : List Entry,
        (((es.filterMap (·.content.tag?)).filter (·.name == ("@var" : Text))).filterMap
          (·.value.typed?)).map (·.type) = (es.map (·.content)).filterMap Content.varType? := by
      intro es
      induction es with
      | nil => rfl
      | cons e es ih =>
        rw [List.map_cons, List.filterMap_cons, List.filterMap_cons, ← ih]
        cases e.content with
        | text s => rfl
        | tag t =>
          obtain ⟨name, value⟩ := t
          by_cases hname : name = ("@var" : Text)
          · subst hname
            cases value <;> rfl
          · have hskip : (name == ("@var" : Text)) = false := beq_eq_false_iff_ne.mpr hname
            cases value <;>
              simp only [Content.tag?, Content.varType?, List.filter_cons, hskip] <;> rfl
    exact (List.head?_map ..).symm.trans (congrArg List.head? (key c.tree.entries))

/-! What is compared. -/

section
variable {ν : Type} {types : TypeSet}

/-- Types whose names stand for the same compare the same, if names that are written in two ways are
no aliases. -/
lemma comparable_congr {f g : ν → TypeRef} {t : TypeExpr ν}
    (hproper : (t.map fun x => (f x).written).isProper)
    (hnames : ∀ n ∈ types.toList, n.isAlias → TypeExpr.isName n.text)
    (hfull : ∀ x ∈ t.names, (f x).full = (g x).full)
    (hwritten : ∀ x ∈ t.names, (f x).written = (g x).written ∨
      ∀ n ∈ types.toList, n.isAlias →
        n.text ≠ Name.unrooted (f x).written ∧ n.text ≠ Name.unrooted (g x).written) :
    comparable types (.ofValue (.ofType (t.map f))) =
      comparable types (.ofValue (.ofType (t.map g))) := by
  rw [comparable_map, comparable_map]
  refine List.map_congr_left fun part hpart => ?_
  cases part with
  | none => rfl
  | some u =>
    obtain ⟨hsub, hu⟩ := TypeExpr.exists_mark_of_mem_parts hproper hpart
    have hufull : (u.map fun x => (f x).full) = u.map fun x => (g x).full :=
      TypeExpr.map_congr fun x hx => hfull x (hsub hx)
    dsimp only [Option.elim]
    rw [hufull]
    rcases hu with ⟨x, rfl⟩ | ⟨c, hc, hmark⟩
    · rcases hwritten x (hsub (by simp [TypeExpr.names])) with heq | hne
      · simp only [TypeExpr.map, heq]
      · exact (comparableTo_of_ne (fun n hn ha => (hne n hn ha).1) _).trans
          (comparableTo_of_ne (fun n hn ha => (hne n hn ha).2) _).symm
    · rw [comparableTo_of_mark hnames hc (hmark _), comparableTo_of_mark hnames hc (hmark _)]

end

end DocSlot

/-! What shortening leaves. -/

namespace Renaming

variable {scope : NameScope} {r : Renaming}

/-- The type of `@var` is read with the names it was printed with. -/
lemma names_varType?_reread (h : r.IsShortening scope)
    (hr : r.after.isUntouched || r.after.written.isReadable) :
    r.after.reread.varType?.map (·.names) =
      r.content.varType?.map (·.names.map (·.2.written)) := by
  cases hu : r.after.isUntouched with
  | true =>
    rw [Entry.reread, if_pos hu, written_after, Content.varType?_map, Option.map_map]
    exact congrArg (Option.map · _) (funext fun t => TypeExpr.names_map _ t)
  | false =>
    obtain ⟨name, v, value, hcontent, -, -, hreread, htype⟩ := h.isRewording.exists_reread hu
    rw [if_pos (by simpa [hu] using hr)] at htype
    cases value with
    | plain s => cases htype
    | malformed s => cases htype
    | typed w =>
      have hw : w.type.names = v.type.names.map (·.2.written) := by
        rw [show w.type = _ from Option.some.inj htype, TypeExpr.names_regroup,
          TypeExpr.names_map]
      rw [hreread, hcontent]
      simp only [Content.varType?]
      split
      · simp [hw]
      · rfl

/-- A `@var` type was read, and its names are among those that were shortened. -/
lemma isProper_of_varType? (h : r.IsShortening scope) {t : TypeExpr (TypeRef × TypeRef)}
    (ht : r.content.varType? = some t) :
    (t.map (·.1.written)).isProper ∧ r.content.names = t.names := by
  obtain ⟨v, hv, rfl⟩ := Content.exists_of_varType? ht
  obtain ⟨l, hl, hread⟩ := h.line
  rw [written_before, hv] at hread
  exact ⟨(Content.isTrim_of_read_tag hl hread.symm).1.1, by rw [hv, Content.names]⟩

end Renaming

namespace DocSlot

variable {classExists : Text → Bool} {scope : NameScope} {s s' : DocSlot}

/-- The type of `@var` is that of the first entry that has one. -/
lemma varType?_of_before {rs : List Renaming}
    (hbefore : s.contents = rs.map (·.content.map Prod.fst)) :
    s.varType? = (rs.filterMap (·.content.varType?)).head?.map (·.map Prod.fst) := by
  rw [varType?_eq, hbefore, List.filterMap_map, ← List.head?_map, List.map_filterMap]
  refine congrArg List.head? (List.filterMap_congr fun r _ => ?_)
  exact Content.varType?_map _ _

/-- Once the entries are read again, it has the names that were written there. -/
lemma names_varType?_of_after {rs : List Renaming} {f : Text → TypeRef}
    (hafter : s.contents = rs.map fun r => r.after.reread.map f)
    (hrs : ∀ r ∈ rs, r.IsShortening scope ∧ (r.after.isUntouched || r.after.written.isReadable)) :
    s.varType?.map (·.names) =
      (rs.filterMap (·.content.varType?)).head?.map (·.names.map fun x => f x.2.written) := by
  rw [varType?_eq, hafter, List.filterMap_map, ← List.head?_map, ← List.head?_map,
    List.map_filterMap, List.map_filterMap]
  refine congrArg List.head? (List.filterMap_congr fun r hr => ?_)
  have hread := congrArg (Option.map (List.map f))
    (Renaming.names_varType?_reread (hrs r hr).1 (hrs r hr).2)
  rw [Option.map_map, Option.map_map] at hread
  rw [Function.comp_apply, Content.varType?_map, Option.map_map]
  calc r.after.reread.varType?.map (TypeExpr.names ∘ TypeExpr.map f)
      = r.after.reread.varType?.map (List.map f ∘ TypeExpr.names) :=
        congrArg (Option.map · _) (funext (TypeExpr.names_map f))
    _ = r.content.varType?.map (List.map f ∘ fun t => t.names.map (·.2.written)) := hread
    _ = _ := congrArg (Option.map · _) (funext fun _ => List.map_map)

/-- The type of `@var` before and after: one shape, and the names side by side. -/
lemma IsImport.exists_varType? {p : PendingImports} (h : s.IsImport classExists scope p s')
    (hscope : s.scope = some scope) (htidy : s.IsTidy)
    (hmeaning : s.KeepsMeaning (s'.withPending p))
    (hvar : s.varMeaning? = (s'.withPending p).varMeaning?) :
    ∃ t? : Option (TypeExpr (TypeRef × TypeRef)),
      s.varType? = t?.map (·.map Prod.fst) ∧
      ((s'.withPending p).varType? = t?.map (·.map fun x =>
        (TypeRef.ofWritten x.2.written).resolveIn (some (scope.withPending p)))) ∧
      ∀ t, t? = some t → (t.map (·.1.written)).isProper ∧ ∀ x ∈ t.names, x.1 ∈ s.names ∧
        TypeExpr.isName x.1.written ∧
        x.1 = (TypeRef.ofWritten x.1.written).resolveIn (some scope) ∧ x.1.IsShortened x.2 ∧
        x.1.effective = ((TypeRef.ofWritten x.2.written).resolveIn
          (some (scope.withPending p))).effective := by
  obtain ⟨rs, hbefore, hafter, hrs, -⟩ := h.exists_kept hscope htidy hmeaning
  have hold := varType?_of_before hbefore
  have hnew := names_varType?_of_after hafter hrs
  cases hhead : (rs.filterMap (·.content.varType?)).head? with
  | none =>
    rw [hhead] at hold hnew
    exact ⟨none, hold, Option.map_eq_none_iff.mp hnew, nofun⟩
  | some t =>
    rw [hhead, Option.map_some] at hold hnew
    obtain ⟨u, hu, hnames⟩ := Option.map_eq_some_iff.mp hnew
    rw [varMeaning?, varMeaning?, hold, hu, Option.map_some, Option.map_some, Option.some.injEq,
      TypeExpr.map_map] at hvar
    obtain rfl := TypeExpr.map_eq_of_names _ t hvar hnames.symm
    obtain ⟨r, hr, ht⟩ := List.mem_filterMap.mp (List.mem_of_mem_head? hhead)
    obtain ⟨hproper, hrnames⟩ := Renaming.isProper_of_varType? (hrs r hr).1 ht
    have heffective := congrArg TypeExpr.names hvar
    rw [TypeExpr.map_map, TypeExpr.names_map, TypeExpr.names_map, List.map_inj_left] at heffective
    refine ⟨some t, hold, hu, ?_⟩
    rintro t ⟨⟩
    refine ⟨hproper, fun x hx => ?_⟩
    have hx' : x ∈ r.content.names := hrnames ▸ hx
    exact ⟨mem_names_of_renamings hbefore hr hx',
      (Renaming.isWord_of_isShortening (hrs r hr).1 x hx').1, (hrs r hr).1.looked x hx',
      (hrs r hr).1.short x hx', heffective x hx⟩

/-- Where the type of `@var` stands in the other comment for what it stands for, it lists the types
it lists, if each alias among them is one segment, and an alias in the scope. -/
def KeepsVarTypes (scope : NameScope) (s s' : DocSlot) : Prop :=
  s.varMeaning? = s'.varMeaning? → ∀ types : TypeSet,
    (∀ n ∈ types.toList, n.isAlias → TypeExpr.isName n.text ∧
      Name.isNamespaced n.text = false ∧ Strategy.isAliased (scope.resolve n.text) n.text) →
    s'.listsVarTypes types = s.listsVarTypes types

/-- A short name never reads like an alias, so shortening does not change what is listed. -/
theorem IsImport.keepsVarTypes {p : PendingImports} (h : s.IsImport classExists scope p s')
    (hscope : s.scope = some scope) (htidy : s.IsTidy) (hfree : p.IsFree scope)
    (hwhole : s.IsWhole) (hmeaning : s.KeepsMeaning (s'.withPending p)) :
    s.KeepsVarTypes scope (s'.withPending p) := by
  intro hvar types haliases
  obtain ⟨t?, hold, hnew, hnames⟩ := h.exists_varType? hscope htidy hmeaning hvar
  rw [listsVarTypes, listsVarTypes, varInfo?_eq, varInfo?_eq, hold, hnew]
  cases t? with
  | none => rfl
  | some t =>
    obtain ⟨hproper, hnames⟩ := hnames t rfl
    have hcomparable : comparable types (.ofValue (.ofType (t.map Prod.fst))) =
        comparable types (.ofValue (.ofType (t.map fun x =>
          (TypeRef.ofWritten x.2.written).resolveIn (some (scope.withPending p))))) := by
      refine comparable_congr hproper (fun n hn ha => (haliases n hn ha).1) (fun x hx => ?_)
        fun x hx => ?_
      · rw [TypeRef.full, TypeRef.full, (hnames x hx).2.2.2.2]
      · obtain ⟨hmem, hname, hlooked, hshort, heffective⟩ := hnames x hx
        rw [TypeRef.written_resolveIn, TypeRef.written_ofWritten]
        rcases hshort with heq | ⟨heq, hn⟩
        · exact .inl (by rw [heq])
        · -- Neither the long name nor the short one reads like an alias.
          refine .inr fun n hmem' ha => ?_
          obtain ⟨-, hsegment, halias⟩ := haliases n hmem' ha
          rw [heq] at heffective ⊢
          refine ⟨fun hlong => ?_, ?_⟩
          · rw [hlong, Name.isNamespaced, Name.unrooted_unrooted] at hsegment
            rw [Name.isNamespaced, hsegment] at hn
            cases hn
          · refine (NameScope.unrooted_short_ne_alias hfree hname hn (hwhole x.1 hmem) ?_
              hsegment halias).symm
            rw [← hlooked]
            exact heffective
    simp only [Option.map_some, hcomparable]

end DocSlot

/-- Of a class whose names were shortened, every property lists the types it listed. -/
lemma ClassLike.IsImport.keepsVarTypes {classExists : Text → Bool} {scope : NameScope}
    {p : PendingImports} {c c' : ClassLike} (h : c.IsImport classExists scope p c')
    (hscope : ∀ d ∈ c.docs, d.scope = some scope) (htidy : ∀ d ∈ c.docs, d.IsTidy)
    (hfree : p.IsFree scope) (hwhole : ∀ d ∈ c.docs, d.IsWhole)
    (hmeaning : List.Forall₂ DocSlot.KeepsMeaning c.docs (c'.withPending p).docs) :
    List.Forall₂ (fun q q' => q.withoutDoc = q'.withoutDoc ∧ q.doc.KeepsVarTypes scope q'.doc)
      c.properties (c'.withPending p).properties := by
  refine forall₂_properties (by rw [withoutDocs_withPending, h.withoutDocs]) ?_
  rw [docs_withPending, List.forall₂_map_right_iff] at hmeaning ⊢
  exact (forall₂_and_mem h.docs hmeaning).imp fun d d' ⟨hd, himport, hkeeps⟩ =>
    himport.keepsVarTypes (hscope d hd) (htidy d hd) hfree (hwhole d hd) hkeeps

end DocTypes
