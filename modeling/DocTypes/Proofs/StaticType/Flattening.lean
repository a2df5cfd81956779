import DocTypes.Proofs.StaticType.Atoms
import DocTypes.Proofs.StaticType.Order
import Mathlib.Logic.Relation

/-!
The strings of unions and intersections within each other. In what order and how often members are given
makes no difference at any depth, and an intersection lists what it lists when all within it is taken
apart: `mixed[]` is left out at some depth only where another array stays, which leaves it out above as
well.
-/
namespace DocTypes

namespace StaticType

/-! Order and repetition. -/

mutual

/-- A type whose members are written down in any order, as it is kept: with a set of members in each union
and each intersection. -/
def normal : StaticType → StaticType
  | .named name => .named name
  | .array item => .array (normal item)
  | .primitive p => .primitive p
  | .union ts => unionOf (normalAll ts)
  | .intersection ts => intersectionOf (normalAll ts)

def normalAll : List StaticType → List StaticType
  | [] => []
  | t :: ts => normal t :: normalAll ts

end

lemma normalAll_eq (ts : List StaticType) : normalAll ts = ts.map normal := by
  induction ts with
  | nil => rfl
  | cons t ts ih => rw [normalAll, ih, List.map_cons]

/-- The members of one union or intersection, somewhere in a type, are written in another order or in
another number. -/
inductive Reordered : StaticType → StaticType → Prop
  | union {ts us : List StaticType} (same : ∀ t, t ∈ ts ↔ t ∈ us) :
      Reordered (.union ts) (.union us)
  | intersection {ts us : List StaticType} (same : ∀ t, t ∈ ts ↔ t ∈ us) :
      Reordered (.intersection ts) (.intersection us)
  | inArray {t u : StaticType} (inside : Reordered t u) : Reordered (.array t) (.array u)
  | inUnion {before after : List StaticType} {t u : StaticType} (inside : Reordered t u) :
      Reordered (.union (before ++ t :: after)) (.union (before ++ u :: after))
  | inIntersection {before after : List StaticType} {t u : StaticType} (inside : Reordered t u) :
      Reordered (.intersection (before ++ t :: after)) (.intersection (before ++ u :: after))

lemma memberSet_normalAll_congr {ts us : List StaticType} (h : ∀ t, t ∈ ts ↔ t ∈ us) :
    memberSet (normalAll ts) = memberSet (normalAll us) := by
  refine memberSet_congr fun t => ?_
  simp only [normalAll_eq, List.mem_map, h]

theorem Reordered.normal_eq {t u : StaticType} (h : Reordered t u) : t.normal = u.normal := by
  induction h with
  | union same => exact congrArg StaticType.union (memberSet_normalAll_congr same)
  | intersection same => exact congrArg StaticType.intersection (memberSet_normalAll_congr same)
  | inArray _ ih => rw [normal, normal, ih]
  | inUnion _ ih => simp only [normal, normalAll_eq, List.map_append, List.map_cons, ih]
  | inIntersection _ ih => simp only [normal, normalAll_eq, List.map_append, List.map_cons, ih]

/-- Any number of changes of that kind, back and forth. -/
lemma normal_eq_of_eqvGen {t u : StaticType} (h : Relation.EqvGen Reordered t u) :
    t.normal = u.normal := by
  induction h with
  | rel t u h => exact h.normal_eq
  | refl t => rfl
  | symm t u _ ih => exact ih.symm
  | trans t u v _ _ first second => exact first.trans second

/-! Taking apart. -/

/-- The atoms that have strings. -/
def tellingAtoms (ts : List StaticType) : List StaticType :=
  (atomsOfAll ts).filter (· ∉ [mixed, error])

lemma mem_tellingAtoms {a : StaticType} {ts : List StaticType} :
    a ∈ tellingAtoms ts ↔ a ∈ atomsOfAll ts ∧ a ∉ [mixed, error] := by
  simp [tellingAtoms]

/-- Mixed and error types have no strings. -/
lemma notMem_canonical_of_vague {a : StaticType} (ha : a ∈ [mixed, error]) (s : Text) :
    s ∉ a.canonical := by
  simp only [List.mem_cons, List.not_mem_nil, or_false] at ha
  rcases ha with rfl | rfl <;> simp [canonical, mixed, error, Primitive.word?]

lemma mem_tellingAtoms_of_mem_canonical {a : StaticType} {ts : List StaticType}
    (ha : a ∈ atomsOfAll ts) {s : Text} (hs : s ∈ a.canonical) : a ∈ tellingAtoms ts :=
  mem_tellingAtoms.mpr ⟨ha, fun hvague => notMem_canonical_of_vague hvague s hs⟩

lemma atoms_of_isAtom {a : StaticType} (h : a.IsAtom) : a.atoms = [a] := by
  cases a with
  | named _ => rfl
  | array _ => rfl
  | primitive _ => rfl
  | union _ => exact h.elim
  | intersection _ => exact h.elim

lemma atomsOfAll_of_isAtom {ts : List StaticType} (h : ∀ t ∈ ts, t.IsAtom) :
    atomsOfAll ts = ts := by
  induction ts with
  | nil => rfl
  | cons t ts ih =>
    obtain ⟨ht, hts⟩ := List.forall_mem_cons.mp h
    rw [atomsOfAll, atoms_of_isAtom ht, ih hts, List.singleton_append]

variable {ts us : List StaticType} {s : Text}

/-- All strings of the atoms stay, but `mixed[]` where an atom has another array. -/
theorem mem_canonical_intersectionOf_iff : s ∈ (intersectionOf ts).canonical ↔
    (∃ a ∈ tellingAtoms ts, s ∈ a.canonical) ∧
      (s = mixedArrayText →
        ∀ a ∈ tellingAtoms ts, ∀ u ∈ a.canonical, isArrayText u → u = mixedArrayText) := by
  -- What a member lists comes from an atom of it.
  have hdown : ∀ t ∈ ts, ∀ u ∈ t.canonical, ∃ a ∈ tellingAtoms ts, u ∈ a.canonical := by
    intro t ht u hu
    obtain ⟨a, ha, hu⟩ := exists_atom_of_mem_canonical t hu
    exact ⟨a, mem_tellingAtoms_of_mem_canonical (mem_atomsOfAll.mpr ⟨t, ht, ha⟩) hu, hu⟩
  -- What an atom lists is listed by a member, or another array is.
  have hup : ∀ a ∈ tellingAtoms ts, ∀ u ∈ a.canonical, ∃ t ∈ ts,
      u ∈ t.canonical ∨ u = mixedArrayText ∧ ∃ v ∈ t.canonical, isArrayText v :=
    fun a ha u hu => exists_member_of_atom hu ts (mem_tellingAtoms.mp ha).1
  rw [intersectionOf, mem_canonical_intersection]
  simp only [mem_memberSet]
  constructor
  · rintro ⟨⟨t, ht, hs⟩, honly⟩
    refine ⟨hdown t ht s hs, fun heq a ha u hu harray => ?_⟩
    obtain ⟨t, ht, hmem | ⟨hmixed, -⟩⟩ := hup a ha u hu
    · exact honly heq t ht u hmem harray
    · exact hmixed
  · rintro ⟨⟨a, ha, hs⟩, honly⟩
    have honly' : s = mixedArrayText →
        ∀ t ∈ ts, ∀ u ∈ t.canonical, isArrayText u → u = mixedArrayText := by
      intro heq t ht u hu harray
      obtain ⟨b, hb, hu⟩ := hdown t ht u hu
      exact honly heq b hb u hu harray
    refine ⟨?_, honly'⟩
    obtain ⟨t, ht, hmem | ⟨hmixed, u, hu, harray⟩⟩ := hup a ha s hs
    · exact ⟨t, ht, hmem⟩
    · have heq : u = s := (honly' hmixed t ht u hu harray).trans hmixed.symm
      exact ⟨t, ht, heq ▸ hu⟩

/-- Intersections that are made of the same list the same, whatever else is among their atoms. -/
theorem mem_canonical_intersectionOf_congr (h : ∀ a, a ∈ tellingAtoms ts ↔ a ∈ tellingAtoms us) :
    s ∈ (intersectionOf ts).canonical ↔ s ∈ (intersectionOf us).canonical := by
  simp only [mem_canonical_intersectionOf_iff, h]

/-- An atom loses `mixed[]` alone, and that to another array. -/
lemma mem_canonical_intersectionOf_or {a : StaticType} (ha : a ∈ atomsOfAll ts)
    (hs : s ∈ a.canonical) : s ∈ (intersectionOf ts).canonical ∨
      s = mixedArrayText ∧ ∃ u ∈ (intersectionOf ts).canonical, isArrayText u ∧ u ≠ mixedArrayText := by
  have hexists : ∃ a ∈ tellingAtoms ts, s ∈ a.canonical :=
    ⟨a, mem_tellingAtoms_of_mem_canonical ha hs, hs⟩
  by_cases hkept : s ∈ (intersectionOf ts).canonical
  · exact .inl hkept
  · rw [mem_canonical_intersectionOf_iff] at hkept
    push Not at hkept
    obtain ⟨heq, b, hb, u, hu, harray, hne⟩ := hkept hexists
    refine .inr ⟨heq, u, mem_canonical_intersectionOf_iff.mpr ⟨⟨b, hb, hu⟩, ?_⟩, harray, hne⟩
    exact fun hmixed => absurd hmixed hne

/-- The strings of a union or an intersection come in one order, in whatever order and however often its
members are given, there and at any depth. An intersection lists what it lists when all unions and
intersections within it are taken apart, with or without what is mixed or an error. Of all that is listed
by what is given or by what it is made of, only `mixed[]` is left out, and only for another array. It is
left out exactly where an atom of the intersection has another array. -/
theorem canonical_reordered_and_flattened :
    (∀ t u, Relation.EqvGen Reordered t u → t.normal.canonical = u.normal.canonical) ∧
    (∀ ts us : List StaticType, (∀ t, t ∈ ts ↔ t ∈ us) →
      (unionOf ts).canonical = (unionOf us).canonical ∧
        (intersectionOf ts).canonical = (intersectionOf us).canonical) ∧
    ∀ ts : List StaticType,
      (∀ s, s ∈ (intersectionOf ts).canonical ↔ s ∈ (intersectionOf (atomsOfAll ts)).canonical) ∧
      (∀ s, s ∈ (intersectionOf ts).canonical ↔ s ∈ (intersectionOf (tellingAtoms ts)).canonical) ∧
      (∀ s, s ∈ (unionOf ts).canonical ↔ ∃ t ∈ ts, s ∈ t.canonical) ∧
      (∀ s, s ∈ (intersectionOf ts).canonical ↔ (∃ a ∈ tellingAtoms ts, s ∈ a.canonical) ∧
        (s = mixedArrayText →
          ∀ a ∈ tellingAtoms ts, ∀ u ∈ a.canonical, isArrayText u → u = mixedArrayText)) ∧
      ∀ t, t ∈ ts ∨ t ∈ atomsOfAll ts → ∀ s ∈ t.canonical,
        s ∈ (intersectionOf ts).canonical ∨ s = mixedArrayText ∧
          ∃ u ∈ (intersectionOf ts).canonical, isArrayText u ∧ u ≠ mixedArrayText := by
  refine ⟨fun t u h => congrArg canonical (normal_eq_of_eqvGen h), fun ts us h => ?_, fun ts => ?_⟩
  · rw [unionOf, unionOf, intersectionOf, intersectionOf, memberSet_congr h]
    exact ⟨rfl, rfl⟩
  · have hatoms : atomsOfAll (atomsOfAll ts) = atomsOfAll ts :=
      atomsOfAll_of_isAtom (isAtom_of_mem_atomsOfAll ts)
    have htelling : atomsOfAll (tellingAtoms ts) = tellingAtoms ts :=
      atomsOfAll_of_isAtom fun a ha => isAtom_of_mem_atomsOfAll ts a (mem_tellingAtoms.mp ha).1
    refine ⟨fun s => mem_canonical_intersectionOf_congr fun a => ?_,
      fun s => mem_canonical_intersectionOf_congr fun a => ?_, fun s => mem_canonical_unionOf,
      fun s => mem_canonical_intersectionOf_iff, fun t ht s hs => ?_⟩
    · simp only [mem_tellingAtoms, hatoms]
    · rw [@mem_tellingAtoms a (tellingAtoms ts), htelling, mem_tellingAtoms]
      exact ⟨fun h => ⟨h, h.2⟩, And.left⟩
    · rcases ht with ht | ht
      · obtain ⟨a, ha, hs⟩ := exists_atom_of_mem_canonical t hs
        exact mem_canonical_intersectionOf_or (mem_atomsOfAll.mpr ⟨t, ht, ha⟩) hs
      · exact mem_canonical_intersectionOf_or ht hs

/-- A union given in another order within an intersection. The array of the union takes the place of
`mixed[]`, as it does when the union is taken apart. -/
theorem canonical_reordered_and_flattened_array_in_union :
    let t : StaticType := .intersection
      [.mixedArray, .union [.array (.named "B"), .int, .int, .mixed], .null]
    let u : StaticType := .intersection
      [.null, .union [.mixed, .int, .array (.named "B")], .mixedArray, .null]
    let ts : List StaticType := [.mixedArray, .unionOf [.array (.named "B"), .int, .mixed], .null]
    (Relation.EqvGen Reordered t u ∧ t.normal.canonical = u.normal.canonical) ∧
    ((∀ v, v ∈ ts ↔ v ∈ ts.reverse) ∧
      (intersectionOf ts).canonical = (intersectionOf ts.reverse).canonical) ∧
    (mixedArray ∈ ts ∧ mixedArrayText ∈ mixedArray.canonical ∧
      (mixedArrayText ∈ (intersectionOf ts).canonical ∨
        ∃ s ∈ (intersectionOf ts).canonical, isArrayText s ∧ s ≠ mixedArrayText)) := by
  intro t u ts
  obtain ⟨hdeep, hflat, hatoms⟩ := canonical_reordered_and_flattened
  have hinner : Reordered t (.intersection
      [.mixedArray, .union [.mixed, .int, .array (.named "B")], .null]) :=
    @Reordered.inIntersection [.mixedArray] _ _ _ (.union (by grind))
  have houter : Reordered (.intersection
      [.mixedArray, .union [.mixed, .int, .array (.named "B")], .null]) u :=
    .intersection (by grind)
  have htu : Relation.EqvGen Reordered t u := .trans _ _ _ (.rel _ _ hinner) (.rel _ _ houter)
  have hreverse : ∀ v, v ∈ ts ↔ v ∈ ts.reverse := fun v => List.mem_reverse.symm
  have hmember : mixedArray ∈ ts := List.mem_cons_self
  have hlisted : mixedArrayText ∈ mixedArray.canonical := by decide
  exact ⟨⟨htu, hdeep t u htu⟩, ⟨hreverse, (hflat ts ts.reverse hreverse).2⟩, hmember, hlisted,
    ((hatoms ts).2.2.2.2 mixedArray (.inl hmember) mixedArrayText hlisted).imp_right And.right⟩

end StaticType
end DocTypes
