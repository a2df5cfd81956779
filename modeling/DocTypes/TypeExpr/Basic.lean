import DocTypes.Text.Basic

/-!
Type expressions of doc comments, over whatever stands for a name: `TypeExpr Text` is a type as
written. Mapping over the names keeps the shape.
-/
namespace DocTypes

inductive TypeExpr (ν : Type) where
  | name (n : ν)
  /-- `?T` -/
  | nullable (t : TypeExpr ν)
  /-- `T[]` -/
  | array (t : TypeExpr ν)
  | union (ts : List (TypeExpr ν))
  | intersection (ts : List (TypeExpr ν))
  /-- `Base<A, B>` -/
  | generic (base : ν) (args : List (TypeExpr ν))

namespace TypeExpr

variable {ν μ ξ : Type}

instance [Inhabited ν] : Inhabited (TypeExpr ν) := ⟨.name default⟩

/-- Induction over a type, with the hypothesis for every member of a list of types. -/
@[elab_as_elim, induction_eliminator]
theorem induct {motive : TypeExpr ν → Prop} (name : ∀ n, motive (.name n))
    (nullable : ∀ t, motive t → motive (.nullable t)) (array : ∀ t, motive t → motive (.array t))
    (union : ∀ ts, (∀ t ∈ ts, motive t) → motive (.union ts))
    (intersection : ∀ ts, (∀ t ∈ ts, motive t) → motive (.intersection ts))
    (generic : ∀ b ts, (∀ t ∈ ts, motive t) → motive (.generic b ts)) (t : TypeExpr ν) :
    motive t :=
  @TypeExpr.rec ν motive (fun ts => ∀ t ∈ ts, motive t) name nullable array union intersection
    generic (fun _ h => absurd h List.not_mem_nil)
    (fun _ _ ht hts u hu => (List.mem_cons.1 hu).elim (fun h => h ▸ ht) (hts u)) t

mutual

def same [DecidableEq ν] : TypeExpr ν → TypeExpr ν → Bool
  | .name n, .name m => n = m
  | .nullable t, .nullable u => same t u
  | .array t, .array u => same t u
  | .union ts, .union us => sameList ts us
  | .intersection ts, .intersection us => sameList ts us
  | .generic b ts, .generic c us => b = c && sameList ts us
  | _, _ => false

def sameList [DecidableEq ν] : List (TypeExpr ν) → List (TypeExpr ν) → Bool
  | [], [] => true
  | t :: ts, u :: us => same t u && sameList ts us
  | _, _ => false

end

mutual

theorem same_iff [DecidableEq ν] : (t u : TypeExpr ν) → (same t u ↔ t = u)
  | .name n, u => by cases u <;> simp [same]
  | .nullable t, u => by cases u <;> simp [same, same_iff t]
  | .array t, u => by cases u <;> simp [same, same_iff t]
  | .union ts, u => by cases u <;> simp [same, sameList_iff ts]
  | .intersection ts, u => by cases u <;> simp [same, sameList_iff ts]
  | .generic b ts, u => by cases u <;> simp [same, sameList_iff ts]

theorem sameList_iff [DecidableEq ν] : (ts us : List (TypeExpr ν)) → (sameList ts us ↔ ts = us)
  | [], us => by cases us <;> simp [sameList]
  | t :: ts, us => by cases us <;> simp [sameList, same_iff t, sameList_iff ts]

end

instance [DecidableEq ν] : DecidableEq (TypeExpr ν) := fun t u =>
  decidable_of_iff _ (same_iff t u)

mutual

/-- The type with every name replaced. -/
def map (f : ν → μ) : TypeExpr ν → TypeExpr μ
  | .name n => .name (f n)
  | .nullable t => .nullable (t.map f)
  | .array t => .array (t.map f)
  | .union ts => .union (mapList f ts)
  | .intersection ts => .intersection (mapList f ts)
  | .generic b ts => .generic (f b) (mapList f ts)

def mapList (f : ν → μ) : List (TypeExpr ν) → List (TypeExpr μ)
  | [] => []
  | t :: ts => t.map f :: mapList f ts

end

mutual

/-- The names from left to right. -/
def names : TypeExpr ν → List ν
  | .name n => [n]
  | .nullable t => t.names
  | .array t => t.names
  | .union ts => namesList ts
  | .intersection ts => namesList ts
  | .generic b ts => b :: namesList ts

def namesList : List (TypeExpr ν) → List ν
  | [] => []
  | t :: ts => t.names ++ namesList ts

end

mutual

/-- Replaces the names from left to right in a monad. -/
def mapM {m : Type → Type} [Monad m] (f : ν → m μ) : TypeExpr ν → m (TypeExpr μ)
  | .name n => do return .name (← f n)
  | .nullable t => do return .nullable (← t.mapM f)
  | .array t => do return .array (← t.mapM f)
  | .union ts => do return .union (← mapListM f ts)
  | .intersection ts => do return .intersection (← mapListM f ts)
  | .generic b ts => do
    let base ← f b
    return .generic base (← mapListM f ts)

def mapListM {m : Type → Type} [Monad m] (f : ν → m μ) :
    List (TypeExpr ν) → m (List (TypeExpr μ))
  | [] => return []
  | t :: ts => do
    let u ← t.mapM f
    return u :: (← mapListM f ts)

end

mutual

/-- What the type admits at its top level: the members of a union, and `?T` as `T` or `null`. -/
def alternatives : TypeExpr Text → List (TypeExpr Text)
  | .union ts => alternativesList ts
  | .nullable t => t.alternatives ++ [.name "null"]
  | .name n => [.name n]
  | .array t => [.array t]
  | .intersection ts => [.intersection ts]
  | .generic b ts => [.generic b ts]

def alternativesList : List (TypeExpr Text) → List (TypeExpr Text)
  | [] => []
  | t :: ts => t.alternatives ++ alternativesList ts

end

mutual

theorem map_map (g : μ → ξ) (f : ν → μ) : (t : TypeExpr ν) → (t.map f).map g = t.map (g ∘ f)
  | .name _ => rfl
  | .nullable t => by simp [map, map_map g f t]
  | .array t => by simp [map, map_map g f t]
  | .union ts => by simp [map, mapList_mapList g f ts]
  | .intersection ts => by simp [map, mapList_mapList g f ts]
  | .generic _ ts => by simp [map, mapList_mapList g f ts]

theorem mapList_mapList (g : μ → ξ) (f : ν → μ) :
    (ts : List (TypeExpr ν)) → mapList g (mapList f ts) = mapList (g ∘ f) ts
  | [] => rfl
  | t :: ts => by simp [mapList, map_map g f t, mapList_mapList g f ts]

end

mutual

@[simp] theorem names_map (f : ν → μ) : (t : TypeExpr ν) → (t.map f).names = t.names.map f
  | .name _ => rfl
  | .nullable t => by simp [map, names, names_map f t]
  | .array t => by simp [map, names, names_map f t]
  | .union ts => by simp [map, names, namesList_mapList f ts]
  | .intersection ts => by simp [map, names, namesList_mapList f ts]
  | .generic _ ts => by simp [map, names, namesList_mapList f ts]

theorem namesList_mapList (f : ν → μ) :
    (ts : List (TypeExpr ν)) → namesList (mapList f ts) = (namesList ts).map f
  | [] => rfl
  | t :: ts => by simp [mapList, namesList, names_map f t, namesList_mapList f ts]

end

theorem mapList_eq (f : ν → μ) (ts : List (TypeExpr ν)) : mapList f ts = ts.map (·.map f) := by
  induction ts with
  | nil => rfl
  | cons t ts ih => simp [mapList, ih]

theorem namesList_eq (ts : List (TypeExpr ν)) : namesList ts = ts.flatMap (·.names) := by
  induction ts with
  | nil => rfl
  | cons t ts ih => simp [namesList, ih]

theorem alternativesList_eq (ts : List (TypeExpr Text)) :
    alternativesList ts = ts.flatMap (·.alternatives) := by
  induction ts with
  | nil => rfl
  | cons t ts ih => simp [alternativesList, ih]

end TypeExpr
end DocTypes
