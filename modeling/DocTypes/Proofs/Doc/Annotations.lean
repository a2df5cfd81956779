import DocTypes.Proofs.Doc.Mentions

/-!
Tags that are looked for as annotation classes. The names of the tags are looked up in the scope
without a backslash in front, so that a name which is full already is looked up like any other.
-/
namespace DocTypes
open Text

lemma filter_eq_filter_iff {α : Type} {p q : α → Bool} {l : List α} :
    l.filter p = l.filter q ↔ ∀ a ∈ l, p a = q a := by
  refine ⟨fun h a ha => ?_, List.filter_congr⟩
  have hmem : a ∈ l.filter p ↔ a ∈ l.filter q := by rw [h]
  simpa only [List.mem_filter, ha, true_and, ← Bool.eq_iff_iff] using hmem

namespace Name

/-- The full name of a class in a namespace. -/
structure IsQualified (name : Text) : Prop where
  namespaced : '\\' ∈ name
  unrooted : unrooted name = name
  trim : trim name = name
  unmarked : name.head? ≠ some '@'

end Name

namespace Tag

variable {scope : NameScope} {wanted : Text}

/-- The tag is called so literally, or what stands behind its mark resolves to the class. -/
def IsOfClass (scope : NameScope) (wanted : Text) (t : Tag TypeRef) : Prop :=
  t.name = '@' :: wanted ∨ ∃ n, t.name = '@' :: n ∧ eqIgnoreCase (scope.resolve n) wanted

lemma isOfClass_iff {t : Tag TypeRef} {n : Text} (h : t.name = '@' :: n) :
    t.IsOfClass scope wanted ↔ n = wanted ∨ eqIgnoreCase (scope.resolve n) wanted := by
  simp [IsOfClass, h]

instance : DecidablePred (IsOfClass scope wanted) := fun t =>
  decidable_of_iff (t.name = '@' :: wanted ∨ t.name.head? = some '@' ∧
    eqIgnoreCase (scope.resolve t.name.tail) wanted) (by
      refine or_congr_right ⟨fun ⟨hhead, h⟩ => ?_, fun ⟨n, hn, h⟩ => by simp [hn, h]⟩
      obtain ⟨n, hn⟩ := List.head?_eq_some_iff.mp hhead
      exact ⟨n, hn, by simpa [hn] using h⟩)

lemma dropWhile_mark (h : Name.IsQualified wanted) : wanted.dropWhile (· == '@') = wanted := by
  cases wanted with
  | nil => rfl
  | cons c r =>
    have hc : c ≠ '@' := fun heq => h.unmarked (congrArg some heq)
    simp [hc]

lemma normalName_of_isQualified (h : Name.IsQualified wanted) : normalName wanted = '@' :: wanted := by
  rw [normalName, h.trim, dropWhile_mark h]

lemma annotationClass_of_isQualified (h : Name.IsQualified wanted) :
    annotationClass ('@' :: wanted) = wanted := by
  rw [annotationClass, List.dropWhile_cons_of_pos rfl, dropWhile_mark h, h.unrooted]

end Tag

/-- A tag name is a mark, a backslash at most, and a name. -/
lemma Content.annotationClass_of_readTagName {s name rest : Text}
    (h : readTagName s = some (name, rest)) : ∃ n, name = '@' :: n ∧
      Tag.annotationClass name = Name.unrooted n ∧ ∀ m, n = '\\' :: m → Name.unrooted n = m := by
  obtain ⟨mark, c, r, hmark, hc, -, rfl, -⟩ := readTagName_cases h
  have hroot : c ≠ '\\' := ne_backslash_of_startsTag hc
  have hat : c ≠ '@' := by
    rintro rfl
    exact absurd hc (by decide)
  rcases hmark with rfl | rfl
  · refine ⟨c :: r, rfl, by simp [Tag.annotationClass, hat], fun m hm => ?_⟩
    exact absurd (List.cons.inj hm).1 hroot
  · refine ⟨'\\' :: c :: r, rfl, by simp [Tag.annotationClass], fun m hm => ?_⟩
    obtain rfl := (List.cons.inj hm).2
    simp [Name.unrooted, hroot]

namespace DocComment

variable {text : Text} {scope : NameScope} {wanted : Text}

/-- Whether a tag is looked for depends on its name without a backslash in front. -/
lemma tagsNamed_eq (h : Name.IsQualified wanted) (text : Text) (scope : NameScope) :
    (read text (some scope)).tagsNamed wanted =
      (read text (some scope)).tree.tags.filter fun t => t.name = '@' :: wanted ∨
        eqIgnoreCase (scope.resolve (Name.unrooted t.name.tail)) wanted := by
  rw [tagsNamed]
  refine List.filter_congr fun t ht => ?_
  obtain ⟨l, rest, hl, -⟩ := DocSlot.exists_line_of_mem_tags ht
  obtain ⟨n, hn, hclass, -⟩ := Content.annotationClass_of_readTagName hl
  have hnamespaced : wanted.contains '\\' = true := List.contains_iff_mem.mpr h.namespaced
  have hscope : (read text (some scope)).scope = some scope := rfl
  rw [isClassTag, hscope]
  dsimp only
  rw [Tag.normalName_of_isQualified h, Tag.annotationClass_of_isQualified h, hclass, hn, hnamespaced]
  simp [← Bool.beq_eq_decide_eq]

/-- For a tag that has no backslash in front this is resolution, and with one it should be the name
itself that counts. -/
lemma isFound_iff_isOfClass (h : Name.IsQualified wanted) {t : Tag TypeRef} {s : Option NameScope}
    (ht : t ∈ (read text s).tree.tags) :
    ((t.name = '@' :: wanted ∨
        eqIgnoreCase (scope.resolve (Name.unrooted t.name.tail)) wanted) ↔
      t.IsOfClass scope wanted) ↔
    ∀ n, t.name = '@' :: '\\' :: n →
      (eqIgnoreCase (scope.resolve n) wanted ↔ eqIgnoreCase n wanted) := by
  obtain ⟨l, rest, hl, -⟩ := DocSlot.exists_line_of_mem_tags ht
  obtain ⟨n, hn, -, hroot⟩ := Content.annotationClass_of_readTagName hl
  rw [Tag.isOfClass_iff hn, hn, List.tail_cons]
  cases n with
  | nil => simp [Name.unrooted]
  | cons c r =>
    by_cases hc : c = '\\'
    · subst hc
      have hne : '\\' :: r ≠ wanted := by
        rintro rfl
        have hlen := congrArg List.length h.unrooted
        rw [hroot r rfl] at hlen
        simp at hlen
      simp [hroot r rfl, hne, NameScope.resolve]
    · have hsame : Name.unrooted (c :: r) = c :: r := List.dropWhile_cons_of_neg (by simpa using hc)
      simp [hsame, hc]

/-- The tags that are found are those whose name, without a backslash in front, resolves to the class.
They are the annotations exactly if each tag with a name that is full already resolves to the class
without its backslash if and only if it is the class. -/
theorem tagsNamed_eq_filter_iff (text : Text) (scope : NameScope) {wanted : Text}
    (h : Name.IsQualified wanted) :
    let c := read text (some scope)
    c.tagsNamed wanted = c.tree.tags.filter (fun t => t.name = '@' :: wanted ∨
      eqIgnoreCase (scope.resolve (Name.unrooted t.name.tail)) wanted) ∧
    (c.tagsNamed wanted = c.tree.tags.filter (Tag.IsOfClass scope wanted ·) ↔
      ∀ t ∈ c.tree.tags, ∀ n, t.name = '@' :: '\\' :: n →
        (eqIgnoreCase (scope.resolve n) wanted ↔ eqIgnoreCase n wanted)) := by
  intro c
  refine ⟨tagsNamed_eq h text scope, ?_⟩
  rw [tagsNamed_eq h text scope, filter_eq_filter_iff]
  refine forall₂_congr fun t ht => ?_
  rw [decide_eq_decide]
  exact isFound_iff_isOfClass h ht

/-- An annotation through an alias in another case, one in the namespace and one that is full, of which
none is taken for another. -/
theorem tagsNamed_eq_filter_iff_alias :
    let scope := (NameScope.inNamespace (some "App")).importAs "Doctrine\\ORM\\Mapping" "ORM"
    let wanted : Text := "Doctrine\\ORM\\Mapping\\Column"
    let c := read "/**\n * @orm\\column(1)\n * @Column\n * @\\Doctrine\\ORM\\Id\n */" (some scope)
    Name.IsQualified wanted ∧
    (∀ t ∈ c.tree.tags, ∀ n, t.name = '@' :: '\\' :: n →
      (eqIgnoreCase (scope.resolve n) wanted ↔ eqIgnoreCase n wanted)) ∧
    c.tagsNamed wanted = c.tree.tags.filter (Tag.IsOfClass scope wanted ·) ∧
    (c.tagsNamed wanted).map (·.name) = ["@orm\\column".toList] := by
  intro scope wanted c
  have h : Name.IsQualified wanted := ⟨by decide, by decide, by decide, by decide⟩
  have hdrop : ∀ t ∈ c.tree.tags, eqIgnoreCase (scope.resolve (t.name.drop 2)) wanted ↔
      eqIgnoreCase (t.name.drop 2) wanted := by decide +kernel
  have hroot : ∀ t ∈ c.tree.tags, ∀ n, t.name = '@' :: '\\' :: n →
      (eqIgnoreCase (scope.resolve n) wanted ↔ eqIgnoreCase n wanted) := by
    intro t ht n hn
    have := hdrop t ht
    rwa [hn] at this
  exact ⟨h, hroot, (tagsNamed_eq_filter_iff _ scope h).2.mpr hroot, by decide +kernel⟩

/-- A name that is full already is looked up in the namespace: the tag is not found as what it is,
and it is found as what it is not. -/
theorem tagsNamed_rooted :
    let scope := NameScope.inNamespace (some "App")
    let c := read "/** @\\A\\B */" (some scope)
    (c.tagsNamed "A\\B" = [] ∧
      c.tree.tags.filter (Tag.IsOfClass scope "A\\B" ·) = [⟨"@\\A\\B", .plain []⟩]) ∧
    c.tagsNamed "App\\A\\B" = [⟨"@\\A\\B", .plain []⟩] ∧
      c.tree.tags.filter (Tag.IsOfClass scope "App\\A\\B" ·) = [] := by
  decide +kernel

end DocComment
end DocTypes
