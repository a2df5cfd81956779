import DocTypes.Doc.TypeEdit
import DocTypes.Proofs.Doc.Renaming
import DocTypes.Proofs.Doc.VarInfo
import DocTypes.Proofs.Import.Names

/-!
Replacing a type. Exactly the names that stand for it are replaced, and with a hierarchy those of
the classes below it; every type keeps its shape, and all other content stays. What was written is
not replaced again, whatever the comment is read as then.
-/
namespace DocTypes
open Text

namespace TypeExpr

variable {ν : Type} {replaced : ν → Prop} {new : ν}

/-- The type without its names. -/
def shape (t : TypeExpr ν) : TypeExpr Unit := t.map fun _ => ()

/-- The other type has the same shape, and `new` in the place of exactly the names that are
replaced. -/
structure IsSubstituted (replaced : ν → Prop) (new : ν) (t u : TypeExpr ν) : Prop where
  shape : u.shape = t.shape
  names : List.Forall₂ (fun n m => (replaced n → m = new) ∧ (¬replaced n → m = n)) t.names u.names

lemma isSubstituted_map {f : ν → ν} {t : TypeExpr ν}
    (h : ∀ n ∈ t.names, (replaced n → f n = new) ∧ (¬replaced n → f n = n)) :
    t.IsSubstituted replaced new (t.map f) := by
  refine ⟨map_map _ _ _, ?_⟩
  rw [names_map, List.forall₂_map_right_iff, List.forall₂_same]
  exact h

end TypeExpr

/-- The other content has new types: `new` in the place of exactly the names that are replaced, in
a tag that bears a type. Any other content is the same. -/
inductive Content.IsRetyped (replaced : TypeRef → Prop) (new : TypeRef) :
    Content TypeRef → Content TypeRef → Prop
  | text (s : Text) : IsRetyped replaced new (.text s) (.text s)
  | untyped (t : Tag TypeRef) (h : Tag.bearsType t.name = false ∨ t.value.typed? = none) :
    IsRetyped replaced new (.tag t) (.tag t)
  | typed (name : Text) (v : TypedValue TypeRef) (type : TypeExpr TypeRef)
    (hb : Tag.bearsType name) (h : v.type.IsSubstituted replaced new type) :
    IsRetyped replaced new (.tag ⟨name, .typed v⟩) (.tag ⟨name, .typed { v with type }⟩)

/-- The other tree has the same entries in the same places, with new types. -/
structure DocTree.IsRetyped (replaced : TypeRef → Prop) (new : TypeRef) (d d' : DocTree) :
    Prop where
  frame : d'.frame = d.frame
  readCount : d'.readCount = d.readCount
  entries : List.Forall₂ (fun e e' => e'.origin = e.origin ∧
    e.content.IsRetyped replaced new e'.content) d.entries d'.entries

namespace TypeRef

variable {isSubtype : Text → Text → Bool} {old new : Text} {scope : Option NameScope}

/-- The name stands for the type, or for a class below it. -/
def IsReplaced (isSubtype : Text → Text → Bool) (old : Text) (r : TypeRef) : Prop :=
  r.full = Name.unrooted old ∨
    Name.isReserved r.full = false ∧ isSubtype r.full (Name.unrooted old)

instance : DecidablePred (IsReplaced isSubtype old) := fun r =>
  inferInstanceAs (Decidable (r.full = Name.unrooted old ∨
    Name.isReserved r.full = false ∧ isSubtype r.full (Name.unrooted old) = true))

lemma isReplaceable_iff {r : TypeRef} :
    r.isReplaceable isSubtype (Name.unrooted old) ↔ r.IsReplaced isSubtype old := by
  simp [isReplaceable, IsReplaced]

/-- The new name as it is written: absolute, if it has a namespace. -/
def replacementName (new : Text) : Text := if new.contains '\\' then Name.rooted new else new

/-- The new name, looked up. -/
def replacement (new : Text) (scope : Option NameScope) : TypeRef :=
  (ofWritten (replacementName new)).resolveIn scope

/-- What a name becomes. -/
def retyped (isSubtype : Text → Text → Bool) (old new : Text) (scope : Option NameScope)
    (r : TypeRef) : TypeRef :=
  if r.isReplaceable isSubtype (Name.unrooted old) then replacement new scope
  else r.resolveIn scope

lemma retyped_of_isReplaced {r : TypeRef} (h : r.IsReplaced isSubtype old) :
    r.retyped isSubtype old new scope = replacement new scope :=
  if_pos (isReplaceable_iff.mpr h)

lemma retyped_of_not_isReplaced {r : TypeRef} (h : ¬r.IsReplaced isSubtype old) :
    r.retyped isSubtype old new scope = r.resolveIn scope :=
  if_neg fun hr => h (isReplaceable_iff.mp hr)

/-- What replacing a type changes is a name that stands for the type and is not the new one. -/
lemma written_retyped_ne_iff {r : TypeRef} :
    (r.retyped isSubtype old new scope).written ≠ r.written ↔
      r.IsReplaced isSubtype old ∧ r.written ≠ replacementName new := by
  by_cases h : r.IsReplaced isSubtype old
  · rw [retyped_of_isReplaced h, replacement, written_resolveIn,
      written_ofWritten, ne_comm]
    simp [h]
  · rw [retyped_of_not_isReplaced h, written_resolveIn]
    simp [h]

/-- The name that is written is a name. -/
lemma isName_replacementName (h : TypeExpr.isName new) :
    TypeExpr.isName (replacementName new) := by
  rw [replacementName]
  split
  · rename_i hc
    refine Name.isName_rooted h ?_
    rw [Bool.eq_false_iff]
    intro hr
    exact Name.notMem_reservedWords _ (List.contains_iff_mem.mp hr)
      (backslash_mem_lower.mpr (List.contains_iff_mem.mp hc))
  · exact h

/-- A name that took the place of another is left alone. -/
lemma written_retyped_retyped (r : TypeRef) (hr : r = (ofWritten r.written).resolveIn scope) :
    (((ofWritten (r.retyped isSubtype old new scope).written).resolveIn scope).retyped isSubtype
      old new scope).written = (r.retyped isSubtype old new scope).written := by
  by_cases h : r.IsReplaced isSubtype old
  · rw [retyped_of_isReplaced h, replacement, written_resolveIn, written_ofWritten, retyped]
    split
    · rw [replacement, written_resolveIn, written_ofWritten]
    · rw [written_resolveIn, written_resolveIn, written_ofWritten]
  · have hwritten : (r.retyped isSubtype old new scope).written = r.written := by
      rw [retyped_of_not_isReplaced h, written_resolveIn]
    rw [hwritten, ← hr, hwritten]

end TypeRef

namespace DocTree

variable {isSubtype : Text → Text → Bool} {old new : Text} {scope : Option NameScope}
  {d : DocTree}

/-- Names become others in the tags that bear a type, and are looked up everywhere. -/
def retypedContent (isSubtype : Text → Text → Bool) (old new : Text) (scope : Option NameScope) :
    Content TypeRef → Content TypeRef
  | .text s => .text s
  | .tag t => .tag <| t.map <|
      if Tag.bearsType t.name then TypeRef.retyped isSubtype old new scope
      else TypeRef.resolveIn scope

lemma replaceType_eq (d : DocTree) : d.replaceType isSubtype old new scope =
    d.mapContents (retypedContent isSubtype old new scope) := by
  have hentries : (d.replaceType isSubtype old new scope).entries =
      (d.mapContents (retypedContent isSubtype old new scope)).entries := by
    rw [replaceType, resolveIn, mapNames, mapTags, mapContents, mapContents, mapContents,
      List.map_map]
    refine List.map_congr_left fun e _ => ?_
    obtain ⟨content, origin⟩ := e
    refine congrArg (Entry.mk · origin) ?_
    cases content with
    | text s => rfl
    | tag t =>
      dsimp only [retypedContent]
      split
      · refine (Content.map_map (TypeRef.resolveIn scope) _ (.tag t)).trans
          (Content.map_congr fun r _ => ?_)
        exact apply_ite (TypeRef.resolveIn scope) _ _ _
      · rfl
  exact congrArg (fun es => { d with entries := es }) hentries

/-- Only the tags that bear a type have names, in a tree that was read. -/
lemma bearsType_of_mem_names {text : Text} {t : Tag TypeRef}
    (ht : t ∈ ((read text).resolveIn scope).tags) {r : TypeRef} (hr : r ∈ (Content.tag t).names) :
    Tag.bearsType t.name := by
  obtain ⟨e, he, hc⟩ := mem_tags.mp ht
  have hd : isDocComment (trim text) :=
    isDocComment_of_mem_names (List.mem_flatMap.mpr ⟨e, he, hc ▸ hr⟩)
  have hmem : Content.tag t ∈ ((read text).resolveIn scope).entries.map (·.content) :=
    hc ▸ List.mem_map_of_mem he
  rw [contents_resolveIn_read, List.map_map] at hmem
  obtain ⟨e₀, he₀, hmap⟩ := List.mem_map.mp hmem
  obtain ⟨name, value⟩ := t
  cases value with
  | plain s => cases hr
  | malformed s => cases hr
  | typed v =>
    obtain ⟨name', w, hw, -⟩ := Content.exists_of_map_typed hmap rfl
    obtain ⟨l, -, hread⟩ := (isKept_read hd e₀ he₀).exists_line
    rw [Function.comp_apply, hw] at hmap
    obtain rfl : name' = name := (Tag.mk.inj (Content.tag.inj hmap)).1
    obtain ⟨-, -, hbears, -⟩ := Content.exists_of_read_typed (hread.symm.trans hw)
    exact hbears

/-- On a tree that was read all names become others. -/
lemma replaceType_resolveIn_read (text : Text) :
    ((read text).resolveIn scope).replaceType isSubtype old new scope =
      ((read text).resolveIn scope).mapNames (TypeRef.retyped isSubtype old new scope) := by
  rw [replaceType_eq]
  refine mapContents_congr fun e he => ?_
  cases hc : e.content with
  | text s => rfl
  | tag t =>
    refine Content.map_congr (c := .tag t) fun r hr => ?_
    rw [if_pos (bearsType_of_mem_names (mem_tags.mpr ⟨e, he, hc⟩) hr)]

/-- Looking up again changes no name of a tree that was looked up. -/
lemma resolveIn_of_mem_names (hd : d.resolveIn scope = d) {e : Entry} (he : e ∈ d.entries) :
    ∀ r ∈ e.content.names, r.resolveIn scope = r := by
  have hentries : d.entries.map (fun e => ⟨e.content.map (·.resolveIn scope), e.origin⟩) =
      d.entries.map id := (congrArg entries hd).trans (List.map_id _).symm
  have hcontent := congrArg Entry.content (List.map_inj_left.mp hentries e he)
  have hnames := congrArg Content.names hcontent
  rw [Content.names_map] at hnames
  exact List.map_inj_left.mp (hnames.trans (List.map_id _).symm)

/-- In a tree that was looked up, exactly the names that are to be replaced are replaced. -/
theorem isRetyped_replaceType (hd : d.resolveIn scope = d) :
    d.IsRetyped (TypeRef.IsReplaced isSubtype old) (TypeRef.replacement new scope)
      (d.replaceType isSubtype old new scope) := by
  rw [replaceType_eq]
  refine ⟨rfl, rfl, ?_⟩
  rw [mapContents, List.forall₂_map_right_iff, List.forall₂_same]
  intro e he
  refine ⟨rfl, ?_⟩
  have hsame := resolveIn_of_mem_names hd he
  cases hc : e.content with
  | text s => exact .text s
  | tag t =>
    have hresolve : (Content.tag t).map (TypeRef.resolveIn scope) = .tag t :=
      Content.map_eq_self (hc ▸ hsame)
    dsimp only [retypedContent]
    obtain ⟨name, value⟩ := t
    cases hb : Tag.bearsType name with
    | false =>
      rw [if_neg (by simp)]
      exact hresolve ▸ .untyped _ (.inl hb)
    | true =>
      rw [if_pos rfl]
      cases value with
      | plain s => exact .untyped _ (.inr rfl)
      | malformed s => exact .untyped _ (.inr rfl)
      | typed v =>
        refine .typed name v _ hb (TypeExpr.isSubstituted_map fun r hr => ⟨fun h => ?_, fun h => ?_⟩)
        · exact TypeRef.retyped_of_isReplaced h
        · exact (TypeRef.retyped_of_not_isReplaced h).trans (hsame r (hc ▸ hr))

/-- What stands for the type afterwards took its place. -/
lemma full_replacement_of_mem_names (hd : d.resolveIn scope = d) {t : Tag TypeRef}
    (ht : t ∈ (d.replaceType isSubtype old new scope).tags) (hb : Tag.bearsType t.name)
    {r : TypeRef} (hr : r ∈ (Content.tag t).names) (hold : r.full = Name.unrooted old) :
    (TypeRef.replacement new scope).full = Name.unrooted old := by
  rw [replaceType_eq] at ht
  obtain ⟨e', he', hc'⟩ := mem_tags.mp ht
  obtain ⟨e, he, rfl⟩ := List.mem_map.mp he'
  cases hc : e.content with
  | text s => simp [hc, retypedContent] at hc'
  | tag t₀ =>
    rw [hc] at hc'
    obtain rfl := Content.tag.inj hc'
    rw [if_pos (show Tag.bearsType t₀.name from hb)] at hr
    have hr' : r ∈ ((Content.tag t₀).map (TypeRef.retyped isSubtype old new scope)).names := hr
    rw [Content.names_map] at hr'
    obtain ⟨r₀, hr₀, rfl⟩ := List.mem_map.mp hr'
    by_cases h : r₀.IsReplaced isSubtype old
    · rwa [TypeRef.retyped_of_isReplaced h] at hold
    · rw [TypeRef.retyped_of_not_isReplaced h,
        resolveIn_of_mem_names hd he r₀ (hc ▸ hr₀)] at hold
      exact absurd (.inl hold) h

end DocTree

namespace DocSlot

variable {isSubtype : Text → Text → Bool} {old new : Text}

/-- In a comment, replacing a type replaces names. -/
lemma editTree_replaceType (isSubtype : Text → Text → Bool) (old new : Text) (s : DocSlot) :
    s.editTree (·.replaceType isSubtype old new s.scope) =
      s.editTree (DocTree.mapNames (TypeRef.retyped isSubtype old new s.scope)) := by
  obtain ⟨text, scope⟩ := s
  cases text with
  | none => rfl
  | some text =>
    exact congrArg (fun d => writeBack ⟨some text, scope⟩ ⟨d, text, scope⟩)
      (DocTree.replaceType_resolveIn_read text)

/-- What names become is a word, if the new name is a name. -/
lemma isWord_retyped (hn : TypeExpr.isName new) (text : Text) (scope : Option NameScope) :
    ∀ r ∈ ((DocTree.read text).resolveIn scope).names,
      TypeExpr.isWord (r.retyped isSubtype old new scope).written := by
  intro r hr
  have hname : TypeExpr.isName (r.retyped isSubtype old new scope).written := by
    by_cases h : r.IsReplaced isSubtype old
    · rw [TypeRef.retyped_of_isReplaced h, TypeRef.replacement, TypeRef.written_resolveIn]
      exact TypeRef.isName_replacementName hn
    · rw [TypeRef.retyped_of_not_isReplaced h, TypeRef.written_resolveIn]
      exact (DocTree.eq_resolveIn_of_mem_names hr).1
  exact TypeExpr.isWord_of_isName hname

/-- What was replaced is not replaced again. -/
theorem changeTypeOrSubtypes_again (hn : TypeExpr.isName new) (s : DocSlot) :
    let s' := (s.changeTypeOrSubtypes isSubtype old new).1
    s'.changeTypeOrSubtypes isSubtype old new = (s', false) := by
  intro s'
  cases hmentions : s.hasTypeTags with
  | false =>
    have hs' : s.changeTypeOrSubtypes isSubtype old new = (s, false) := by
      rw [changeTypeOrSubtypes, hmentions, if_neg (by decide)]
    have hsame : s' = s := congrArg Prod.fst hs'
    rw [hsame]
    exact hs'
  | true =>
    have hs' : s' = (s.editTree (DocTree.mapNames
        (TypeRef.retyped isSubtype old new s.scope))).1 := by
      rw [← editTree_replaceType]
      exact congrArg Prod.fst (if_pos hmentions)
    obtain ⟨_ | text, scope⟩ := s
    · cases hmentions
    · have hne : text ≠ [] := by
        rintro rfl
        cases hmentions
      have hw : ∀ r ∈ ((DocTree.read text).resolveIn scope).names,
          TypeExpr.isWord (r.retyped isSubtype old new scope).written := isWord_retyped hn text scope
      have hscope : s'.scope = scope := by rw [hs', editTree_mapNames hne hw]
      have hagain := editTree_mapNames_again hw fun r hr _ =>
        TypeRef.written_retyped_retyped r (DocTree.eq_resolveIn_of_mem_names hr).2
      rw [changeTypeOrSubtypes, editTree_replaceType, hscope, hs', hagain, ite_self]

/-- Replacing a type replaces exactly the names that stand for it, or for a class below it where
there is a hierarchy, keeps all else, and leaves none that stands for it unless the new name does. The
second time it changes nothing. -/
theorem replaceType_isRetyped_and_again :
    (∀ (scope : Option NameScope) (d : DocTree) (isSubtype : Text → Text → Bool) (old new : Text),
      d.resolveIn scope = d →
      let d' := d.replaceType isSubtype old new scope
      d.IsRetyped (TypeRef.IsReplaced isSubtype old) (TypeRef.replacement new scope) d' ∧
      ∀ t ∈ d'.tags, Tag.bearsType t.name → ∀ v, t.value = .typed v → ∀ r ∈ v.type.names,
        r.full = Name.unrooted old → (TypeRef.replacement new scope).full = Name.unrooted old) ∧
    ∀ (s : DocSlot) (isSubtype : Text → Text → Bool) (old new : Text), TypeExpr.isName new →
      (s.changeTypeOrSubtypes isSubtype old new).1.changeTypeOrSubtypes isSubtype old new =
        ((s.changeTypeOrSubtypes isSubtype old new).1, false) ∧
      (s.changeType old new).1.changeType old new = ((s.changeType old new).1, false) := by
  refine ⟨fun scope d isSubtype old new hd => ⟨DocTree.isRetyped_replaceType hd, ?_⟩,
    fun s isSubtype old new hn =>
      ⟨changeTypeOrSubtypes_again hn s, changeTypeOrSubtypes_again hn s⟩⟩
  rintro ⟨name, value⟩ ht hb v rfl r hr hold
  exact DocTree.full_replacement_of_mem_names hd ht hb hr hold

/-- The type and a class below it, among others that stay, in a comment with another tag that names
the type in its text. -/
theorem replaceType_isRetyped_and_again_below :
    let scope : Option NameScope := some (.inNamespace (some "App"))
    let isSubtype : Text → Text → Bool := fun sub super => sub = "App\\B" && super = "App\\A"
    let text : Text := "/**\n * @param A|list<?B[]> $a A note on A.\n * @see A\n * @var (C&A)\n */"
    let d := (DocTree.read text).resolveIn scope
    let s' := (changeTypeOrSubtypes isSubtype "\\App\\A" "Lib\\A" ⟨some text, scope⟩).1
    (d.resolveIn scope = d ∧
      d.IsRetyped (TypeRef.IsReplaced isSubtype "\\App\\A") (TypeRef.replacement "Lib\\A" scope)
        (d.replaceType isSubtype "\\App\\A" "Lib\\A" scope)) ∧
    TypeExpr.isName "Lib\\A" ∧
    s'.text = some ("/**\n * @param \\Lib\\A|list<?\\Lib\\A[]> $a A note on A.\n * @see A\n" ++
      " * @var C&\\Lib\\A\n */") ∧
    s'.changeTypeOrSubtypes isSubtype "\\App\\A" "Lib\\A" = (s', false) := by
  intro scope isSubtype text d s'
  have hd : d.resolveIn scope = d := by decide +kernel
  refine ⟨⟨hd, (replaceType_isRetyped_and_again.1 scope d isSubtype _ _ hd).1⟩, by decide, ?_,
    (replaceType_isRetyped_and_again.2 ⟨some text, scope⟩ isSubtype _ _ (by decide)).1⟩
  decide +kernel

end DocSlot
end DocTypes
