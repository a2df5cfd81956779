import DocTypes.StaticType.Canonical
import Mathlib.Tactic.Common

/-!
What the type strings of a type come from. Unions and intersections, in whatever depth, are made of
classes, arrays and primitives, and each of these adds its own strings; `mixed[]` alone may be left out
for another array.
-/
namespace DocTypes

namespace StaticType

/-- The string of an array. -/
def isArrayText (s : Text) : Bool := Text.endsWith "[]" s

/-! The strings of compound types. -/

lemma mem_canonicalMembers {s : Text} {ts : List StaticType} :
    s ∈ canonicalMembers ts ↔ ∃ t ∈ ts, s ∈ t.canonical := by
  simp [canonicalMembers_eq]

lemma mem_canonical_union {s : Text} {ts : List StaticType} :
    s ∈ canonical (.union ts) ↔ ∃ t ∈ ts, s ∈ t.canonical := by
  rw [canonical, OrderedSet.mem_ofList, mem_canonicalMembers]

lemma mem_canonical_unionOf {s : Text} {ts : List StaticType} :
    s ∈ (unionOf ts).canonical ↔ ∃ t ∈ ts, s ∈ t.canonical := by
  rw [unionOf, mem_canonical_union]
  simp only [mem_memberSet]

/-- All stays, but `mixed[]` where there is another array. -/
lemma mem_dropMixedArray {s : Text} {types : OrderedSet Text} :
    s ∈ dropMixedArray types ↔ s ∈ types ∧
      (s = mixedArrayText → ∀ u ∈ types, isArrayText u → u = mixedArrayText) := by
  have hany : (types.toList.any fun t => Text.endsWith "[]" t && t != mixedArrayText) = true ↔
      ∃ u ∈ types, isArrayText u ∧ u ≠ mixedArrayText := by
    simp [isArrayText]
  rw [dropMixedArray]
  split
  · rename_i h
    obtain ⟨u, hu, harray, hne⟩ := hany.mp h
    rw [OrderedSet.mem_erase]
    constructor
    · rintro ⟨hs, hmem⟩
      exact ⟨hmem, fun heq => absurd heq hs⟩
    · rintro ⟨hmem, hs⟩
      exact ⟨fun heq => hne (hs heq u hu harray), hmem⟩
  · rename_i h
    refine ⟨fun hmem => ⟨hmem, fun _ u hu harray => ?_⟩, And.left⟩
    by_contra hne
    exact h (hany.mpr ⟨u, hu, harray, hne⟩)

lemma mem_canonical_intersection {s : Text} {ts : List StaticType} :
    s ∈ canonical (.intersection ts) ↔ (∃ t ∈ ts, s ∈ t.canonical) ∧
      (s = mixedArrayText → ∀ t ∈ ts, ∀ u ∈ t.canonical, isArrayText u → u = mixedArrayText) := by
  rw [canonical, mem_dropMixedArray]
  simp only [OrderedSet.mem_ofList, mem_canonicalMembers]
  grind

/-- Another array takes the place of what is left out, so an array is listed if a member lists one. -/
lemma exists_isArrayText_intersection {ts : List StaticType} :
    (∃ s ∈ canonical (.intersection ts), isArrayText s) ↔
      ∃ t ∈ ts, ∃ s ∈ t.canonical, isArrayText s := by
  simp only [mem_canonical_intersection]
  constructor
  · rintro ⟨s, ⟨⟨t, ht, hs⟩, -⟩, harray⟩
    exact ⟨t, ht, s, hs, harray⟩
  · rintro ⟨t, ht, s, hs, harray⟩
    by_cases hall : ∀ t ∈ ts, ∀ u ∈ t.canonical, isArrayText u → u = mixedArrayText
    · exact ⟨s, ⟨⟨t, ht, hs⟩, fun _ => hall⟩, harray⟩
    · push Not at hall
      obtain ⟨t, ht, u, hu, harray, hne⟩ := hall
      exact ⟨u, ⟨⟨t, ht, hu⟩, fun heq => absurd heq hne⟩, harray⟩

lemma exists_mem_canonical_intersection {ts : List StaticType} :
    (∃ s, s ∈ canonical (.intersection ts)) ↔ ∃ t ∈ ts, ∃ s, s ∈ t.canonical := by
  constructor
  · rintro ⟨s, hs⟩
    obtain ⟨t, ht, hs⟩ := (mem_canonical_intersection.mp hs).1
    exact ⟨t, ht, s, hs⟩
  · rintro ⟨t, ht, s, hs⟩
    by_cases heq : s = mixedArrayText
    · obtain ⟨u, hu, -⟩ := exists_isArrayText_intersection.mpr ⟨t, ht, s, hs, by rw [heq]; decide⟩
      exact ⟨u, hu⟩
    · exact ⟨s, mem_canonical_intersection.mpr ⟨⟨t, ht, hs⟩, fun h => absurd h heq⟩⟩

lemma mem_canonical_array {s : Text} {t : StaticType} :
    s ∈ canonical (.array t) ↔
      (t.canonical.isEmpty ∧ s = mixedArrayText) ∨ ∃ u ∈ t.canonical, u ++ "[]" = s := by
  rw [canonical, arrayTexts]
  split
  · rename_i h
    have hnone : ∀ u, u ∉ t.canonical := OrderedSet.isEmpty_iff.mp h
    simp [h, hnone]
  · rename_i h
    simp [h, OrderedSet.image]

lemma isArrayText_append (s : Text) : isArrayText (s ++ "[]") := by
  simp [isArrayText, Text.endsWith]

/-- An array lists nothing but arrays. -/
lemma isArrayText_of_mem_array {s : Text} {t : StaticType} (h : s ∈ canonical (.array t)) :
    isArrayText s := by
  rcases mem_canonical_array.mp h with ⟨-, rfl⟩ | ⟨u, -, rfl⟩
  · decide
  · exact isArrayText_append u

lemma exists_mem_canonical_array (t : StaticType) : ∃ s, s ∈ canonical (.array t) := by
  by_cases h : t.canonical.isEmpty
  · exact ⟨mixedArrayText, mem_canonical_array.mpr (.inl ⟨h, rfl⟩)⟩
  · rw [OrderedSet.isEmpty_iff] at h
    push Not at h
    obtain ⟨u, hu⟩ := h
    exact ⟨u ++ "[]", mem_canonical_array.mpr (.inr ⟨u, hu, rfl⟩)⟩

/-! What a type is made of. -/

mutual

/-- The classes, arrays and primitives that a type is made of by unions and intersections. -/
def atoms : StaticType → List StaticType
  | .named name => [.named name]
  | .array item => [.array item]
  | .primitive p => [.primitive p]
  | .union ts => atomsOfAll ts
  | .intersection ts => atomsOfAll ts

def atomsOfAll : List StaticType → List StaticType
  | [] => []
  | t :: ts => t.atoms ++ atomsOfAll ts

end

lemma mem_atomsOfAll {a : StaticType} {ts : List StaticType} :
    a ∈ atomsOfAll ts ↔ ∃ t ∈ ts, a ∈ t.atoms := by
  induction ts with
  | nil => simp [atomsOfAll]
  | cons t ts ih => simp [atomsOfAll, ih]

lemma mem_atoms_intersectionOf {a : StaticType} {ts : List StaticType} :
    a ∈ (intersectionOf ts).atoms ↔ ∃ t ∈ ts, a ∈ t.atoms := by
  rw [intersectionOf, atoms, mem_atomsOfAll]
  simp only [mem_memberSet]

/-- Neither a union nor an intersection. -/
def IsAtom : StaticType → Prop
  | .named _ => True
  | .array _ => True
  | .primitive _ => True
  | .union _ => False
  | .intersection _ => False

mutual

theorem isAtom_of_mem_atoms : (t : StaticType) → ∀ a ∈ t.atoms, a.IsAtom
  | .named _ => by simp [atoms, IsAtom]
  | .array _ => by simp [atoms, IsAtom]
  | .primitive _ => by simp [atoms, IsAtom]
  | .union ts => isAtom_of_mem_atomsOfAll ts
  | .intersection ts => isAtom_of_mem_atomsOfAll ts

theorem isAtom_of_mem_atomsOfAll : (ts : List StaticType) → ∀ a ∈ atomsOfAll ts, a.IsAtom
  | [] => List.forall_mem_nil _
  | t :: ts => by
    intro a ha
    rcases List.mem_append.mp ha with ha | ha
    · exact isAtom_of_mem_atoms t a ha
    · exact isAtom_of_mem_atomsOfAll ts a ha

end

mutual

/-- A string comes from an atom. -/
theorem exists_atom_of_mem_canonical {s : Text} : (t : StaticType) → s ∈ t.canonical →
    ∃ a ∈ t.atoms, s ∈ a.canonical
  | .named name, h => ⟨.named name, List.mem_singleton_self _, h⟩
  | .array item, h => ⟨.array item, List.mem_singleton_self _, h⟩
  | .primitive p, h => ⟨.primitive p, List.mem_singleton_self _, h⟩
  | .union ts, h => exists_atom_of_mem_canonicalMembers ts (OrderedSet.mem_ofList.mp h)
  | .intersection ts, h =>
    exists_atom_of_mem_canonicalMembers ts (OrderedSet.mem_ofList.mp (mem_dropMixedArray.mp h).1)

theorem exists_atom_of_mem_canonicalMembers {s : Text} : (ts : List StaticType) →
    s ∈ canonicalMembers ts → ∃ a ∈ atomsOfAll ts, s ∈ a.canonical
  | [], h => absurd h List.not_mem_nil
  | t :: ts, h => by
    rcases List.mem_append.mp h with h | h
    · obtain ⟨a, ha, hs⟩ := exists_atom_of_mem_canonical t h
      exact ⟨a, List.mem_append_left _ ha, hs⟩
    · obtain ⟨a, ha, hs⟩ := exists_atom_of_mem_canonicalMembers ts h
      exact ⟨a, List.mem_append_right _ ha, hs⟩

end

mutual

/-- A string of an atom is kept, but for `mixed[]` in favour of another array. -/
theorem mem_canonical_of_atom {a : StaticType} {s : Text} (hs : s ∈ a.canonical) :
    (t : StaticType) → a ∈ t.atoms →
      s ∈ t.canonical ∨ s = mixedArrayText ∧ ∃ u ∈ t.canonical, isArrayText u
  | .named name, ha => by
    obtain rfl := List.mem_singleton.mp ha
    exact .inl hs
  | .array item, ha => by
    obtain rfl := List.mem_singleton.mp ha
    exact .inl hs
  | .primitive p, ha => by
    obtain rfl := List.mem_singleton.mp ha
    exact .inl hs
  | .union ts, ha => by
    obtain ⟨t, ht, h⟩ := exists_member_of_atom hs ts ha
    refine h.imp (fun h => mem_canonical_union.mpr ⟨t, ht, h⟩) ?_
    rintro ⟨heq, u, hu, harray⟩
    exact ⟨heq, u, mem_canonical_union.mpr ⟨t, ht, hu⟩, harray⟩
  | .intersection ts, ha => by
    obtain ⟨t, ht, h⟩ := exists_member_of_atom hs ts ha
    by_cases hkept : s ∈ canonical (.intersection ts)
    · exact .inl hkept
    · have hmixed : s = mixedArrayText ∧ ∃ u ∈ t.canonical, isArrayText u := by
        refine h.elim (fun hs => ?_) id
        rw [mem_canonical_intersection] at hkept
        have heq : s = mixedArrayText := by
          by_contra hne
          exact hkept ⟨⟨t, ht, hs⟩, fun heq => absurd heq hne⟩
        exact ⟨heq, s, hs, by rw [heq]; decide⟩
      exact .inr ⟨hmixed.1, exists_isArrayText_intersection.mpr ⟨t, ht, hmixed.2⟩⟩

theorem exists_member_of_atom {a : StaticType} {s : Text} (hs : s ∈ a.canonical) :
    (ts : List StaticType) → a ∈ atomsOfAll ts → ∃ t ∈ ts,
      s ∈ t.canonical ∨ s = mixedArrayText ∧ ∃ u ∈ t.canonical, isArrayText u
  | [], ha => absurd ha List.not_mem_nil
  | t :: ts, ha => by
    rcases List.mem_append.mp ha with ha | ha
    · exact ⟨t, List.mem_cons_self, mem_canonical_of_atom hs t ha⟩
    · obtain ⟨u, hu, h⟩ := exists_member_of_atom hs ts ha
      exact ⟨u, List.mem_cons_of_mem _ hu, h⟩

end

/-- Nothing but null is listed exactly if all atoms are null, or cannot be listed at all. -/
theorem forall_canonical_eq_null_iff {t : StaticType} :
    (∀ s ∈ t.canonical, s = "null".toList) ↔ ∀ a ∈ t.atoms, a ∈ [null, mixed, error] := by
  constructor
  · intro hnull a ha
    have hkept : ∀ s ∈ a.canonical, s = "null".toList := by
      intro s hs
      rcases mem_canonical_of_atom hs t ha with hs | ⟨-, u, hu, harray⟩
      · exact hnull s hs
      · rw [hnull u hu] at harray
        exact absurd harray (by decide)
    have hatom := isAtom_of_mem_atoms t a ha
    cases a with
    | named name =>
      have hs : ('\\' :: name : Text) ∈ canonical (.named name) := by simp [canonical]
      exact absurd (List.cons.inj (hkept _ hs)).1 (by decide)
    | array item =>
      obtain ⟨s, hs⟩ := exists_mem_canonical_array item
      have harray := isArrayText_of_mem_array hs
      rw [hkept s hs] at harray
      exact absurd harray (by decide)
    | primitive p =>
      have hword : ∀ w, p.word? = some w → w = "null".toList := fun w hw =>
        hkept w (by simp [canonical, hw])
      cases p <;> first | exact absurd (hword _ rfl) (by decide) | decide
    | union _ => exact hatom.elim
    | intersection _ => exact hatom.elim
  · intro hatoms s hs
    obtain ⟨a, ha, hs⟩ := exists_atom_of_mem_canonical t hs
    have hvague := hatoms a ha
    simp only [List.mem_cons, List.not_mem_nil, or_false] at hvague
    rcases hvague with rfl | rfl | rfl
    · simpa [canonical, null, Primitive.word?] using hs
    · simp [canonical, mixed, Primitive.word?] at hs
    · simp [canonical, error, Primitive.word?] at hs

/-- Null is listed for an atom that is null. -/
theorem null_mem_canonical_iff {t : StaticType} : "null".toList ∈ t.canonical ↔ null ∈ t.atoms := by
  constructor
  · intro h
    obtain ⟨a, ha, hs⟩ := exists_atom_of_mem_canonical t h
    have hatom := isAtom_of_mem_atoms t a ha
    cases a with
    | named name => simp [canonical] at hs
    | array item => exact absurd (isArrayText_of_mem_array hs) (by decide)
    | primitive p =>
      have hnull : p = .null := by
        cases p <;> first | rfl | simp [canonical, Primitive.word?] at hs
      rwa [hnull] at ha
    | union _ => exact hatom.elim
    | intersection _ => exact hatom.elim
  · intro h
    have hs : "null".toList ∈ null.canonical := by decide
    rcases mem_canonical_of_atom hs t h with hs | ⟨heq, -⟩
    · exact hs
    · exact absurd heq (by decide)

end StaticType
end DocTypes
