import DocTypes.Proofs.Doc.ChangeVar
import DocTypes.Proofs.Doc.Edits
import DocTypes.Proofs.TypeExpr.Alternatives

/-!
What a comment says of the types of `@var`: the alternatives of one type, each as written and in full.
A full name never begins with a backslash, so full types compare as they are.
-/
namespace DocTypes
open Text

/-! Texts that do not begin with a backslash. -/

namespace Name

lemma mem_unrooted {c : Char} {s : Text} (hc : c ≠ '\\') (h : c ∈ s) : c ∈ unrooted s := by
  rw [← List.takeWhile_append_dropWhile (p := (· == '\\')) (l := s), List.mem_append] at h
  exact h.resolve_left fun h => hc (by simpa using List.mem_takeWhile_imp h)

lemma unrooted_cons_of_ne {c : Char} (h : c ≠ '\\') (s : Text) : unrooted (c :: s) = c :: s :=
  List.dropWhile_cons_of_neg (by simpa using h)

/-- A text that is unrooted begins with no backslash, and stays so whatever is put behind it. -/
lemma unrooted_append_self {s t : Text} (hs : unrooted s = s) (ht : unrooted t = t) :
    unrooted (s ++ t) = s ++ t := by
  cases s with
  | nil => exact ht
  | cons c s =>
    refine unrooted_cons_of_ne ?_ _
    rintro rfl
    have hlen := (List.dropWhile_suffix (· == '\\') (l := s)).length_le
    have hs' : unrooted s = '\\' :: s := (unrooted_backslash s).symm.trans hs
    rw [unrooted] at hs'
    rw [hs', List.length_cons] at hlen
    omega

lemma unrooted_join {sep : Text} (hsep : unrooted sep = sep) {pieces : List Text}
    (h : ∀ p ∈ pieces, unrooted p = p) : unrooted (join sep pieces) = join sep pieces := by
  induction pieces with
  | nil => rfl
  | cons p ps ih =>
    rw [List.forall_mem_cons] at h
    cases ps with
    | nil => simpa [join] using h.1
    | cons q qs =>
      rw [join_cons_cons, List.append_assoc]
      exact unrooted_append_self h.1 (unrooted_append_self hsep (ih h.2))

end Name

namespace TypeExpr
open Name

/-- The marks of arrays, intersections and generic types stand in no name. -/
lemma notMem_of_mark {c : Char} (hc : c ∈ [']', '&', '>']) {n : Text} (hn : isName n) : c ∉ n := by
  simp only [List.mem_cons, List.not_mem_nil, or_false] at hc
  rcases hc with rfl | rfl | rfl <;> exact notMem_of_isName (by decide) (by decide) hn

lemma unrooted_parenthesizedIf {s : Text} (h : unrooted s = s) (needed : Bool) :
    unrooted (parenthesizedIf needed s) = parenthesizedIf needed s := by
  cases needed with
  | false => exact h
  | true => exact unrooted_cons_of_ne (by decide) _

/-- A printed type begins with a backslash only if a name in it does. -/
lemma unrooted_render {t : TypeExpr Text} (h : ∀ n ∈ t.names, unrooted n = n) :
    unrooted t.render = t.render := by
  have hmembers : ∀ ts : List (TypeExpr Text), (∀ t ∈ ts, unrooted t.render = t.render) →
      ∀ p ∈ renderMembers ts, unrooted p = p := by
    intro ts hts
    rw [renderMembers_eq, List.forall_mem_map]
    exact fun t ht => unrooted_parenthesizedIf (hts t ht) _
  induction t with
  | name n => exact h n (by simp [names])
  | nullable t ih => exact unrooted_cons_of_ne (by decide) _
  | array t ih => exact unrooted_append_self (unrooted_parenthesizedIf (ih h) _) (by decide)
  | union ts ih =>
    simp only [names, namesList_eq, List.mem_flatMap] at h
    exact unrooted_join (by decide) (hmembers ts fun t ht => ih t ht fun n hn => h n ⟨t, ht, hn⟩)
  | intersection ts ih =>
    simp only [names, namesList_eq, List.mem_flatMap] at h
    exact unrooted_join (by decide) (hmembers ts fun t ht => ih t ht fun n hn => h n ⟨t, ht, hn⟩)
  | generic b ts ih =>
    simp only [render, List.append_assoc]
    exact unrooted_append_self (h b (by simp [names])) (unrooted_cons_of_ne (by decide) _)

lemma unrooted_alternatives {t : TypeExpr Text} (h : ∀ n ∈ t.names, unrooted n = n) :
    ∀ u ∈ t.alternatives, unrooted u.render = u.render := by
  induction t with
  | union ts ih =>
    simp only [names, namesList_eq, List.mem_flatMap] at h
    rw [alternatives, alternativesList_eq]
    intro u hu
    obtain ⟨t, ht, hu⟩ := List.mem_flatMap.mp hu
    exact ih t ht (fun n hn => h n ⟨t, ht, hn⟩) u hu
  | nullable t ih =>
    rw [alternatives, List.forall_mem_append, List.forall_mem_singleton]
    exact ⟨ih h, by decide⟩
  | name n => simpa [alternatives] using unrooted_render h
  | array t ih => simpa [alternatives] using unrooted_render h
  | intersection ts ih => simpa [alternatives] using unrooted_render h
  | generic b ts ih => simpa [alternatives] using unrooted_render h

end TypeExpr

/-- Full types begin with no backslash. -/
lemma TypeInfo.unrooted_full (v : TypedValue TypeRef) :
    ∀ f ∈ (TypeInfo.ofValue v).full, Name.unrooted f = f := by
  rw [TypeInfo.ofValue, List.forall_mem_map]
  refine TypeExpr.unrooted_alternatives fun n hn => ?_
  rw [TypeExpr.full, TypeExpr.names_map] at hn
  obtain ⟨r, -, rfl⟩ := List.mem_map.mp hn
  exact Name.unrooted_unrooted _

namespace Content

variable {ν μ : Type}

/-- A tag with a type had one before its names were replaced. -/
lemma exists_of_map_typed {f : ν → μ} {c : Content ν} {t : Tag μ} {v : TypedValue μ}
    (h : c.map f = .tag t) (hv : t.value.typed? = some v) :
    ∃ name w, c = .tag ⟨name, .typed w⟩ ∧ v = w.map f := by
  cases c with
  | text s => cases h
  | tag u =>
    obtain ⟨name, value⟩ := u
    obtain rfl := Content.tag.inj h
    cases value with
    | plain s => cases hv
    | malformed s => cases hv
    | typed w => exact ⟨name, w, rfl, (Option.some.inj hv).symm⟩

end Content

/-! The type of `@var`. -/

namespace DocSlot

/-- The type of the first `@var` tag that has one. -/
def varType? (s : DocSlot) : Option (TypeExpr TypeRef) :=
  s.comment?.bind fun c => (c.typedValues "@var").head?.map (·.type)

lemma varInfo?_eq (s : DocSlot) :
    s.varInfo? = s.varType?.map fun t => .ofValue (.ofType t) := by
  rw [varInfo?, varType?]
  cases s.comment? with
  | none => rfl
  | some c => exact (Option.map_map (fun t => TypeInfo.ofValue (.ofType t)) TypedValue.type _).symm

/-- The type of `@var` in a tidy comment is one that was written, with its names looked up. -/
lemma exists_written_of_varType? {s : DocSlot} (hs : s.IsTidy) {t : TypeExpr TypeRef}
    (h : s.varType? = some t) : ∃ u : TypeExpr Text, TypeExpr.IsWritten u ∧
      t = u.map fun w => (TypeRef.ofWritten w).resolveIn s.scope := by
  cases htext : s.text with
  | none => simp [varType?, comment?, htext] at h
  | some text =>
    simp only [varType?, comment?, htext, Option.map_some, Option.bind_some, Option.map_eq_some_iff]
      at h
    obtain ⟨v, hv, rfl⟩ := h
    obtain ⟨tag, htag, hvalue⟩ := List.mem_filterMap.mp (List.mem_of_mem_head? hv)
    obtain ⟨e', he', hcontent⟩ := DocTree.mem_tags.mp (List.mem_filter.mp htag).1
    obtain ⟨e, he, rfl⟩ := List.mem_map.mp he'
    -- The entry holds what was read from one line.
    obtain ⟨l, hl, hread⟩ :=
      ((DocTree.isUsual_read (hs text htext).1 (hs text htext).2).2 e he).exists_line
    have hmap : (Content.read l).map (TypeRef.resolveIn s.scope ∘ .ofWritten) = .tag tag := by
      rw [← Content.map_map, ← hread, ← DocTree.content_eq_of_mem_read he]
      exact hcontent
    obtain ⟨name, w, hw, rfl⟩ := Content.exists_of_map_typed hmap hvalue
    exact ⟨w.type, (Content.isTrim_of_read_tag hl hw).1, rfl⟩

/-! What is compared. -/

section
variable {ν : Type} {types : TypeSet}

/-- An alternative in the form in which it compares with `types`. -/
def comparableTo (types : TypeSet) (written full : Text) : Text :=
  if types.toList.any fun n => n.isAlias && n.text == Name.unrooted written then
    Name.unrooted written
  else Name.unrooted full

lemma comparableTo_of_ne {written : Text}
    (h : ∀ n ∈ types.toList, n.isAlias → n.text ≠ Name.unrooted written) (full : Text) :
    comparableTo types written full = Name.unrooted full := by
  refine if_neg fun hany => ?_
  obtain ⟨n, hn, hsame⟩ := List.any_eq_true.mp hany
  rw [Bool.and_eq_true, beq_iff_eq] at hsame
  exact h n hn hsame.1 hsame.2

/-- A type that is more than a name reads like no alias. -/
lemma comparableTo_of_mark {c : Char} {written : Text}
    (hnames : ∀ n ∈ types.toList, n.isAlias → TypeExpr.isName n.text) (hc : c ∈ [']', '&', '>'])
    (h : c ∈ written) (full : Text) : comparableTo types written full = Name.unrooted full := by
  refine comparableTo_of_ne (fun n hn ha heq => ?_) full
  refine TypeExpr.notMem_of_mark hc (hnames n hn ha) (heq ▸ Name.mem_unrooted ?_ h)
  rintro rfl
  exact absurd hc (by decide)

lemma comparable_map (types : TypeSet) (f : ν → TypeRef) (t : TypeExpr ν) :
    comparable types (.ofValue (.ofType (t.map f))) = t.parts.map fun part =>
      comparableTo types (part.elim (.name "null") (·.map fun x => (f x).written)).render
        (part.elim (.name "null") (·.map fun x => (f x).full)).render := by
  simp only [comparable, TypeInfo.ofValue, TypedValue.ofType, TypeExpr.written, TypeExpr.full,
    TypeExpr.map_map, TypeExpr.alternatives_map, List.map_map, List.zip_map']
  rfl

/-- Without aliases the full types are compared, as they are. -/
lemma comparable_of_no_alias (h : ∀ n ∈ types.toList, n.isAlias = false) (t : TypeExpr TypeRef) :
    comparable types (.ofValue (.ofType t)) = (TypeInfo.ofValue (.ofType t)).full := by
  have hfull : ∀ part ∈ t.parts,
      Name.unrooted (part.elim (.name "null") (·.map (·.full))).render =
        (part.elim (.name "null") (·.map (·.full))).render := by
    intro part hpart
    refine TypeInfo.unrooted_full (.ofType t) _ ?_
    rw [TypeInfo.ofValue, TypedValue.ofType, TypeExpr.full, TypeExpr.alternatives_map]
    exact List.mem_map_of_mem (List.mem_map_of_mem hpart)
  have hmap := comparable_map types id t
  rw [TypeExpr.map_id] at hmap
  rw [hmap, TypeInfo.ofValue, TypedValue.ofType, TypeExpr.full, TypeExpr.alternatives_map,
    List.map_map]
  refine List.map_congr_left fun part hpart => ?_
  rw [comparableTo_of_ne fun n hn ha => absurd ha (by simp [h n hn])]
  exact hfull part hpart

end

/-! What a comment lists after types were set. -/

variable {s : DocSlot} {types : TypeSet}

lemma exists_ofValue_of_varInfo? {i : TypeInfo} (h : s.varInfo? = some i) :
    ∃ t, i = .ofValue (.ofType t) := by
  rw [varInfo?_eq] at h
  obtain ⟨t, -, rfl⟩ := Option.map_eq_some_iff.mp h
  exact ⟨t, rfl⟩

/-- Types without an alias among them are listed by their full names, in some order. -/
lemma exists_full_changeVar (hs : s.IsTidy) (h : ∀ n ∈ types.toList, n.IsListed)
    (halias : ∀ n ∈ types.toList, n.isAlias = false) (hne : types.isEmpty = false) :
    ∃ i, (s.changeVar types).1.varInfo? = some i ∧
      i.full.Perm (types.toList.map (Name.unrooted ·.text)) := by
  have hlists := listsVarTypes_changeVar_of_isListed hs h hne
  rw [listsVarTypes] at hlists
  cases hi : (s.changeVar types).1.varInfo? with
  | none => simp [hi] at hlists
  | some i =>
    obtain ⟨t, rfl⟩ := exists_ofValue_of_varInfo? hi
    rw [hi] at hlists
    refine ⟨_, rfl, ?_⟩
    rw [← comparable_of_no_alias halias]
    exact List.isPerm_iff.mp hlists

end DocSlot
end DocTypes
