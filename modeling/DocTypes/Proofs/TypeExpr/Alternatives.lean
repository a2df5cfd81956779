import DocTypes.Proofs.TypeExpr.Regroup

/-!
The alternatives of a type whose names are replaced. They stand in the same places, and one that is
more than a name does not read like a name, whatever its names are.
-/
namespace DocTypes
open Text

namespace TypeExpr

variable {ν μ ξ : Type}

/-! Types of one shape. -/

mutual

/-- A type is told by its shape and its names. -/
theorem map_eq_of_names {f : ν → ξ} {f' : μ → ξ} (g : ν → μ) : (t : TypeExpr ν) → {u : TypeExpr μ} →
    t.map f = u.map f' → t.names.map g = u.names → t.map g = u
  | .name n, u, hs, hn => by
    cases u <;> simp_all [map, names]
  | .nullable t, u, hs, hn => by
    cases u with
    | nullable u => exact congrArg nullable (map_eq_of_names g t (nullable.inj hs) hn)
    | _ => cases hs
  | .array t, u, hs, hn => by
    cases u with
    | array u => exact congrArg array (map_eq_of_names g t (array.inj hs) hn)
    | _ => cases hs
  | .union ts, u, hs, hn => by
    cases u with
    | union us => exact congrArg union (mapList_eq_of_names g ts (union.inj hs) hn)
    | _ => cases hs
  | .intersection ts, u, hs, hn => by
    cases u with
    | intersection us =>
      exact congrArg intersection (mapList_eq_of_names g ts (intersection.inj hs) hn)
    | _ => cases hs
  | .generic b ts, u, hs, hn => by
    cases u with
    | generic c us =>
      obtain ⟨hb, hn⟩ := List.cons.inj hn
      rw [map, hb, mapList_eq_of_names g ts (generic.inj hs).2 hn]
    | _ => cases hs

theorem mapList_eq_of_names {f : ν → ξ} {f' : μ → ξ} (g : ν → μ) : (ts : List (TypeExpr ν)) →
    {us : List (TypeExpr μ)} → mapList f ts = mapList f' us →
    (namesList ts).map g = namesList us → mapList g ts = us
  | [], us, hs, _ => by
    cases us with
    | nil => rfl
    | cons u us => cases hs
  | t :: ts, us, hs, hn => by
    cases us with
    | nil => cases hs
    | cons u us =>
      obtain ⟨ht, hts⟩ := List.cons.inj hs
      have hlen : (t.names.map g).length = u.names.length := by
        have := congrArg (List.length ∘ names) ht
        simpa using this
      rw [namesList, namesList, List.map_append] at hn
      obtain ⟨hn₁, hn₂⟩ := List.append_inj hn hlen
      rw [mapList, map_eq_of_names g t ht hn₁, mapList_eq_of_names g ts hts hn₂]

end

/-! Alternatives. -/

mutual

/-- The alternatives of a type whatever its names are; `none` is the null behind a `?`. -/
def parts : TypeExpr ν → List (Option (TypeExpr ν))
  | .union ts => partsList ts
  | .nullable t => t.parts ++ [none]
  | .name n => [some (.name n)]
  | .array t => [some (.array t)]
  | .intersection ts => [some (.intersection ts)]
  | .generic b ts => [some (.generic b ts)]

def partsList : List (TypeExpr ν) → List (Option (TypeExpr ν))
  | [] => []
  | t :: ts => t.parts ++ partsList ts

end

lemma partsList_eq (ts : List (TypeExpr ν)) : partsList ts = ts.flatMap (·.parts) := by
  induction ts with
  | nil => rfl
  | cons t ts ih => simp [partsList, ih]

lemma alternatives_map (f : ν → Text) (t : TypeExpr ν) :
    (t.map f).alternatives = t.parts.map (·.elim (.name "null") (·.map f)) := by
  induction t with
  | name n => rfl
  | nullable t ih => simp [map, alternatives, parts, ih]
  | array t ih => rfl
  | union ts ih =>
    rw [map, alternatives, alternativesList_eq, mapList_eq, parts, partsList_eq, List.flatMap_map,
      List.map_flatMap]
    exact List.flatMap_congr ih
  | intersection ts ih => rfl
  | generic b ts ih => rfl

/-- An alternative of a type that was written is a name, or holds a mark that no name holds. -/
lemma exists_mark_of_mem_parts {f : ν → Text} {t u : TypeExpr ν} (hp : (t.map f).isProper)
    (hu : some u ∈ t.parts) : u.names ⊆ t.names ∧ ((∃ n, u = .name n) ∨
      ∃ c ∈ [']', '&', '>'], ∀ g : ν → Text, c ∈ (u.map g).render) := by
  induction t with
  | name n =>
    obtain rfl : u = .name n := by simpa [parts] using hu
    exact ⟨fun _ => id, .inl ⟨n, rfl⟩⟩
  | nullable t ih =>
    have hu' : some u ∈ t.parts := by simpa [parts] using hu
    exact ih hp hu'
  | array t ih =>
    obtain rfl : u = .array t := by simpa [parts] using hu
    exact ⟨fun _ => id, .inr ⟨']', by simp, fun g => by simp [map, render]⟩⟩
  | union ts ih =>
    rw [parts, partsList_eq, List.mem_flatMap] at hu
    obtain ⟨t, ht, hu⟩ := hu
    rw [map, isProper_union, mapList_eq, List.forall_mem_map] at hp
    obtain ⟨hnames, hmark⟩ := ih t ht (hp.2 t ht) hu
    refine ⟨fun n hn => ?_, hmark⟩
    rw [names, namesList_eq, List.mem_flatMap]
    exact ⟨t, ht, hnames hn⟩
  | intersection ts ih =>
    obtain rfl : u = .intersection ts := by simpa [parts] using hu
    refine ⟨fun _ => id, .inr ⟨'&', by simp, fun g => ?_⟩⟩
    rw [map, isProper_intersection, mapList_eq, List.length_map] at hp
    rcases ts with - | ⟨t, - | ⟨t', ts⟩⟩
    · simp at hp
    · simp at hp
    · simp [map, mapList, render, renderMembers, join_cons_cons]
  | generic b ts ih =>
    obtain rfl : u = .generic b ts := by simpa [parts] using hu
    exact ⟨fun _ => id, .inr ⟨'>', by simp, fun g => by simp [map, render]⟩⟩

end TypeExpr
end DocTypes
