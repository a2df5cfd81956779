import DocTypes.Proofs.TypeExpr.RoundTrip

/-!
Types with other names. The shape decides how a type is printed, and whether the text shows how it is
grouped; a later member of an intersection that begins with `$` is the only name that cannot be read.
-/
namespace DocTypes.TypeExpr

variable {ν μ : Type}

/-! What the shape decides. -/

@[simp] lemma isCompound_map (f : ν → μ) (t : TypeExpr ν) : (t.map f).isCompound = t.isCompound := by
  cases t <;> rfl

@[simp] lemma isLoose_map (f : ν → μ) (t : TypeExpr ν) : (t.map f).isLoose = t.isLoose := by
  cases t <;> rfl

/-- The shape decides what is proper. -/
lemma isProper_map (f g : ν → Text) (t : TypeExpr ν) :
    (t.map f).isProper = (t.map g).isProper := by
  have hlist : ∀ ts : List (TypeExpr ν), (∀ t ∈ ts, (t.map f).isProper = (t.map g).isProper) →
      allProper (mapList f ts) = allProper (mapList g ts) := by
    intro ts h
    rw [Bool.eq_iff_iff, allProper_iff, allProper_iff, mapList_eq, mapList_eq, List.forall_mem_map,
      List.forall_mem_map]
    exact forall₂_congr fun t ht => by rw [h t ht]
  induction t with
  | name n => rfl
  | nullable t ih => exact ih
  | array t ih => exact ih
  | union ts ih =>
    rw [map, map, isProper, isProper, hlist ts ih]
    simp [mapList_eq]
  | intersection ts ih =>
    rw [map, map, isProper, isProper, hlist ts ih]
    simp [mapList_eq]
  | generic b ts ih =>
    rw [map, map, isProper, isProper, hlist ts ih]
    simp [mapList_eq]

/-- The shape decides what is grouped. -/
lemma isGrouped_map (f g : ν → Text) (t : TypeExpr ν) :
    (t.map f).isGrouped = (t.map g).isGrouped := by
  have hlist : ∀ ts : List (TypeExpr ν), (∀ t ∈ ts, (t.map f).isGrouped = (t.map g).isGrouped) →
      allGrouped (mapList f ts) = allGrouped (mapList g ts) := by
    intro ts h
    rw [Bool.eq_iff_iff, allGrouped_iff, allGrouped_iff, mapList_eq, mapList_eq,
      List.forall_mem_map, List.forall_mem_map]
    exact forall₂_congr fun t ht => by rw [h t ht]
  induction t with
  | name n => rfl
  | nullable t ih => rw [map, map, isGrouped, isGrouped, isCompound_map, isCompound_map, ih]
  | array t ih => exact ih
  | union ts ih => exact hlist ts ih
  | intersection ts ih => exact hlist ts ih
  | generic b ts ih => exact hlist ts ih

lemma names_ne_nil {t : TypeExpr Text} (h : t.isProper) : t.names ≠ [] := by
  have hlist : ∀ ts : List (TypeExpr Text), 2 ≤ ts.length →
      (∀ t ∈ ts, t.isProper → t.names ≠ []) → (∀ t ∈ ts, t.isProper) → namesList ts ≠ [] := by
    intro ts hl ih hp
    obtain ⟨t, ts, rfl⟩ := List.exists_cons_of_length_pos (show 0 < ts.length by omega)
    have := ih t (by simp) (hp t (by simp))
    simp [namesList, this]
  induction t with
  | name n => simp [names]
  | nullable t ih => exact ih h
  | array t ih => exact ih h
  | union ts ih =>
    rw [isProper_union] at h
    exact hlist ts h.1 ih h.2
  | intersection ts ih =>
    rw [isProper_intersection] at h
    exact hlist ts h.1 ih h.2
  | generic b ts ih => simp [names]

/-! What begins with `$`. -/

lemma isJoinable_append_cons {c : Char} (hc : c ≠ '$') (s t : Text) :
    isJoinable (s ++ c :: t) = isJoinable s := by
  cases s with
  | nil => simp [isJoinable, Text.startsWith, List.isPrefixOf, hc.symm]
  | cons d s => simp [isJoinable, Text.startsWith, List.isPrefixOf]

lemma isJoinable_parenthesizedIf (needed : Bool) (s : Text) :
    isJoinable (parenthesizedIf needed s) = (needed || isJoinable s) := by
  cases needed with
  | true => exact isJoinable_append_cons (by decide) [] _
  | false => rfl

section
variable {f g : ν → Text}

/-- A printed type that begins with a `$` begins with a name that does. -/
lemma isJoinable_render_map {t : TypeExpr ν}
    (h : ∀ x ∈ t.names, isJoinable (f x) → isJoinable (g x)) :
    isJoinable (t.map f).render → isJoinable (t.map g).render := by
  -- The first member decides, behind a parenthesis if it needs one.
  have hmembers : ∀ {mark : Char} {ts : List (TypeExpr ν)}, mark ≠ '$' →
      (∀ t ∈ ts, isJoinable (t.map f).render → isJoinable (t.map g).render) →
      isJoinable (Text.join [mark] (renderMembers (mapList f ts))) →
        isJoinable (Text.join [mark] (renderMembers (mapList g ts))) := by
    intro mark ts hmark hts
    cases ts with
    | nil => exact id
    | cons t ts =>
      rw [mapList, mapList, renderMembers, renderMembers, Text.join_cons, Text.join_cons]
      simp only [List.cons_append, List.nil_append]
      rw [isJoinable_append_flatMap hmark, isJoinable_append_flatMap hmark,
        isJoinable_parenthesizedIf, isJoinable_parenthesizedIf, isCompound_map, isCompound_map,
        Bool.or_eq_true, Bool.or_eq_true]
      exact Or.imp_right (hts t (by simp))
  induction t with
  | name x => exact h x (by simp [names])
  | nullable t ih => exact fun _ => isJoinable_append_cons (by decide) [] _
  | array t ih =>
    rw [map, map, render, render]
    change isJoinable (_ ++ '[' :: "]".toList) → isJoinable (_ ++ '[' :: "]".toList)
    rw [isJoinable_append_cons (by decide), isJoinable_append_cons (by decide),
      isJoinable_parenthesizedIf, isJoinable_parenthesizedIf, isLoose_map, isLoose_map,
      Bool.or_eq_true, Bool.or_eq_true]
    exact Or.imp_right (ih h)
  | union ts ih =>
    refine hmembers (by decide) fun t ht => ih t ht fun x hx => h x ?_
    rw [names, namesList_eq]
    exact List.mem_flatMap.mpr ⟨t, ht, hx⟩
  | intersection ts ih =>
    refine hmembers (by decide) fun t ht => ih t ht fun x hx => h x ?_
    rw [names, namesList_eq]
    exact List.mem_flatMap.mpr ⟨t, ht, hx⟩
  | generic b ts ih =>
    rw [map, map, render, render, List.append_assoc, List.append_assoc, List.cons_append,
      List.cons_append, isJoinable_append_cons (by decide), isJoinable_append_cons (by decide)]
    exact h b (by simp [names])

/-- A type that can be read can be read with other names, if none of them begins with a `$` where the
old one does not. -/
theorem isReadable_map {t : TypeExpr ν}
    (h : ∀ x ∈ t.names, isName (g x) ∧ (isJoinable (f x) → isJoinable (g x))) :
    (t.map f).isReadable → (t.map g).isReadable := by
  have hlist : ∀ ts : List (TypeExpr ν), (∀ t ∈ ts, t.names ⊆ namesList ts) := by
    intro ts t ht x hx
    rw [namesList_eq]
    exact List.mem_flatMap.mpr ⟨t, ht, hx⟩
  have hall : ∀ ts : List (TypeExpr ν),
      (∀ t ∈ ts, (t.map f).isReadable → (t.map g).isReadable) →
      allReadable (mapList f ts) → allReadable (mapList g ts) := by
    intro ts hts
    rw [allReadable_iff, allReadable_iff, mapList_eq, mapList_eq, List.forall_mem_map,
      List.forall_mem_map]
    exact fun hf t ht => hts t ht (hf t ht)
  induction t with
  | name x => exact fun _ => (h x (by simp [names])).1
  | nullable t ih => exact ih h
  | array t ih => exact ih h
  | union ts ih => exact hall ts fun t ht => ih t ht fun x hx => h x (hlist ts t ht hx)
  | intersection ts ih =>
    rw [map, map, isReadable, isReadable, Bool.and_eq_true, Bool.and_eq_true]
    refine And.imp (hall ts fun t ht => ih t ht fun x hx => h x (hlist ts t ht hx)) ?_
    rw [mapList_eq, mapList_eq, ← List.map_tail, ← List.map_tail, List.all_map, List.all_map,
      List.all_eq_true, List.all_eq_true]
    intro hf t ht
    have htail := hf t ht
    rw [Function.comp_apply, renderMember, isJoinable_parenthesizedIf, isCompound_map,
      Bool.or_eq_true] at htail ⊢
    exact htail.imp_right (isJoinable_render_map fun x hx =>
      (h x (hlist ts t (List.mem_of_mem_tail ht) hx)).2)
  | generic b ts ih =>
    rw [map, map, isReadable, isReadable, Bool.and_eq_true, Bool.and_eq_true]
    refine And.imp (fun _ => (h b (by simp [names])).1)
      (hall ts fun t ht => ih t ht fun x hx => h x ?_)
    exact List.mem_cons_of_mem b (hlist ts t ht hx)

end
end DocTypes.TypeExpr
