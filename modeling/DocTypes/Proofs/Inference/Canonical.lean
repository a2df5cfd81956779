import DocTypes.Proofs.Doc.VarInfo
import DocTypes.Proofs.Inference.Aliases
import Mathlib.Data.List.Nodup

/-!
The types that a comment lists after a static type was written into it: the type strings of that
type and no others, whatever was written there before and whatever is imported.
-/
namespace DocTypes
open Text

namespace TypeName
open TypeExpr

lemma isListable_plain {s : Text} :
    (plain s).IsListable ↔ ∃ w k, s = w ++ brackets k ∧ (w ∈ Name.reservedWords ∨ isName w) :=
  Iff.rfl

/-- A word of the type syntax, or the name of a class. -/
lemma isListable_of_name {w : Text} (h : w ∈ Name.reservedWords ∨ isName w) :
    (plain w).IsListable :=
  isListable_plain.mpr ⟨w, 0, (List.append_nil w).symm, h⟩

lemma isListable_array {s : Text} (h : (plain s).IsListable) : (plain (s ++ "[]")).IsListable := by
  obtain ⟨w, k, rfl, hw⟩ := isListable_plain.mp h
  exact isListable_plain.mpr ⟨w, k + 1, by rw [List.append_assoc, brackets], hw⟩

end TypeName

namespace StaticType
open TypeExpr

variable {t : StaticType}

/-- The class names are names of the type syntax without a backslash in front, and none is the
`$this` of that syntax. -/
def IsSpelled (t : StaticType) : Prop :=
  ∀ n ∈ t.classNames, isName n ∧ startsWith "\\" n = false ∧ n ≠ "$this"

instance (t : StaticType) : Decidable t.IsSpelled :=
  inferInstanceAs (Decidable (∀ n ∈ t.classNames,
    isName n ∧ startsWith "\\" n = false ∧ n ≠ "$this"))

lemma isName_cons_of_isName {n : Text} (h : isName n) (hroot : startsWith "\\" n = false)
    (hthis : n ≠ "$this") : isName ('\\' :: n) := by
  rcases isName_cases h with rfl | ⟨r, rfl, -⟩ | hs
  · exact absurd rfl hthis
  · simp [startsWith] at hroot
  · simp [isName, hs]

lemma isArrayClosed_isListable : IsArrayClosed fun s => (TypeName.plain s).IsListable := by
  refine ⟨fun p w hw => TypeName.isListable_of_name (.inl ?_), ?_, fun s =>
    TypeName.isListable_array⟩
  · cases p <;> cases hw <;> decide
  · exact TypeName.isListable_array (s := "mixed") (TypeName.isListable_of_name (.inl (by decide)))

/-- Each type string is a name with brackets behind it. -/
lemma isListable_canonical (h : t.IsSpelled) :
    ∀ s ∈ t.canonical.toList, (TypeName.plain s).IsListable :=
  forall_canonical isArrayClosed_isListable t fun n hn =>
    have ⟨hname, hroot, hthis⟩ := h n hn
    TypeName.isListable_of_name (.inr (isName_cons_of_isName hname hroot hthis))

lemma toList_typeSet (t : StaticType) : t.typeSet.toList = t.canonical.toList.map .plain :=
  OrderedSet.toList_ofList_of_nodup <| t.canonical.nodup.map fun _ _ h => congrArg TypeName.text h

end StaticType

namespace DocSlot

/-- After a static type was set, `@var` lists its type strings, each in full. -/
theorem exists_full_changeVar_typeSet {s : DocSlot} (hs : s.IsTidy) {t : StaticType}
    (ht : t.IsSpelled) (hne : t.canonical.isEmpty = false) :
    ∃ i, (s.changeVar t.typeSet).1.varInfo? = some i ∧
      i.full.Perm (t.canonical.toList.map Name.unrooted) := by
  have hlisted : ∀ n ∈ t.typeSet.toList, n.IsListed := by
    rw [StaticType.toList_typeSet, List.forall_mem_map]
    exact fun x hx => TypeName.isListed (StaticType.isListable_canonical ht x hx)
  have hne' : t.typeSet.isEmpty = false := by
    rwa [OrderedSet.isEmpty, StaticType.toList_typeSet, List.isEmpty_map]
  obtain ⟨i, hi, hperm⟩ := exists_full_changeVar hs hlisted (isAlias_typeSet t) hne'
  rw [StaticType.toList_typeSet, List.map_map] at hperm
  exact ⟨i, hi, hperm⟩

/-- Arrays within unions and an intersection. The scope imports other classes under the names of the
two that are listed, and one under the word `int`. -/
theorem exists_full_changeVar_typeSet_nested :
    let scope : NameScope := ⟨none, some "App",
      .ofList [("User", "Vendor\\User"), ("A", "Other"), ("int", "My\\Number")]⟩
    let s : DocSlot := ⟨some "/**\n * @var User|Foo[] old\n * @var string\n */", some scope⟩
    let t : StaticType := .union [.array (.union [.named "User", .int]),
      .intersection [.mixedArray, .array (.named "A\\B")], .null]
    s.IsTidy ∧ t.IsSpelled ∧ t.canonical.isEmpty = false ∧
      (s.changeVar t.typeSet).1.text =
        some "/**\n * @var \\User[]|int[]|\\A\\B[]|null\n */".toList ∧
      ∃ i, (s.changeVar t.typeSet).1.varInfo? = some i ∧
        i.full.Perm ["User[]", "int[]", "A\\B[]", "null"] := by
  intro scope s t
  have htidy : s.IsTidy := by decide +kernel
  have hspelled : t.IsSpelled := by decide +kernel
  have hne : t.canonical.isEmpty = false := by decide +kernel
  exact ⟨htidy, hspelled, hne, by decide +kernel, exists_full_changeVar_typeSet htidy hspelled hne⟩

/-- `$this` is a name of the type syntax, but behind a backslash it is none. -/
theorem varInfo?_changeVar_typeSet_this :
    let s : DocSlot := ⟨none, none⟩
    let t : StaticType := .named "$this"
    s.IsTidy ∧ (∀ n ∈ t.classNames, TypeExpr.isName n ∧ startsWith "\\" n = false) ∧
      t.canonical.toList = [("\\$this" : Text)] ∧
      ¬∃ i, (s.changeVar t.typeSet).1.varInfo? = some i ∧
        i.full.Perm (t.canonical.toList.map Name.unrooted) := by
  intro s t
  refine ⟨nofun, by decide +kernel, by decide +kernel, ?_⟩
  have hnone : (s.changeVar t.typeSet).1.varInfo? = none := by decide +kernel
  rintro ⟨i, hi, -⟩
  rw [hnone] at hi
  cases hi

end DocSlot
end DocTypes
