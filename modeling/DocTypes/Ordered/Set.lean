/-!
Finite sets that remember the order in which their elements were first inserted.
-/
namespace DocTypes

structure OrderedSet (α : Type) where
  toList : List α
  nodup : toList.Nodup
  deriving DecidableEq

namespace OrderedSet

variable {α β : Type}

instance : EmptyCollection (OrderedSet α) := ⟨⟨[], List.nodup_nil⟩⟩

instance : Inhabited (OrderedSet α) := ⟨∅⟩

instance : Membership α (OrderedSet α) := ⟨fun s a => a ∈ s.toList⟩

@[ext] theorem ext {s t : OrderedSet α} (h : s.toList = t.toList) : s = t := by
  cases s; cases t; cases h; rfl

@[simp] theorem toList_empty : (∅ : OrderedSet α).toList = [] := rfl

@[simp] theorem mem_toList {a : α} {s : OrderedSet α} : a ∈ s.toList ↔ a ∈ s := Iff.rfl

@[simp] theorem notMem_empty (a : α) : a ∉ (∅ : OrderedSet α) := List.not_mem_nil

variable [DecidableEq α] [DecidableEq β]

instance (a : α) (s : OrderedSet α) : Decidable (a ∈ s) :=
  inferInstanceAs (Decidable (a ∈ s.toList))

/-- A new element goes to the end; an element already present stays where it is. -/
def insert (a : α) (s : OrderedSet α) : OrderedSet α :=
  if h : a ∈ s.toList then s
  else ⟨s.toList ++ [a], by
    refine List.nodup_append.2 ⟨s.nodup, by simp, ?_⟩
    intro b hb c hc
    rintro rfl
    exact h (List.mem_singleton.1 hc ▸ hb)⟩

/-- Inserts the elements of a list from left to right. -/
def insertAll (s : OrderedSet α) (xs : List α) : OrderedSet α :=
  xs.foldl (fun t a => t.insert a) s

def ofList (xs : List α) : OrderedSet α := insertAll ∅ xs

def erase (a : α) (s : OrderedSet α) : OrderedSet α := ⟨s.toList.erase a, s.nodup.erase a⟩

def isEmpty (s : OrderedSet α) : Bool := s.toList.isEmpty

def size (s : OrderedSet α) : Nat := s.toList.length

/-- The images of the elements, in the order of their sources. -/
def image (f : α → β) (s : OrderedSet α) : OrderedSet β := ofList (s.toList.map f)

/-- The same elements, in any order. -/
def sameElements (s t : OrderedSet α) : Bool :=
  s.size == t.size && s.toList.all (· ∈ t.toList)

omit [DecidableEq α] in
theorem isEmpty_iff {s : OrderedSet α} : s.isEmpty = true ↔ ∀ a, a ∉ s := by
  rw [isEmpty, List.isEmpty_iff, List.eq_nil_iff_forall_not_mem]
  rfl

theorem toList_insert (a : α) (s : OrderedSet α) :
    (s.insert a).toList = if a ∈ s then s.toList else s.toList ++ [a] := by
  unfold insert
  by_cases h : a ∈ s.toList
  · rw [dif_pos h, if_pos (mem_toList.1 h)]
  · rw [dif_neg h, if_neg (fun h' => h (mem_toList.2 h'))]

@[simp] theorem mem_insert {a b : α} {s : OrderedSet α} : b ∈ s.insert a ↔ b ∈ s ∨ b = a := by
  rw [← mem_toList, toList_insert]
  split
  · rename_i h
    exact ⟨Or.inl, fun hb => hb.elim id (fun hb => hb ▸ h)⟩
  · simp

@[simp] theorem mem_insertAll {b : α} {s : OrderedSet α} {xs : List α} :
    b ∈ s.insertAll xs ↔ b ∈ s ∨ b ∈ xs := by
  induction xs generalizing s with
  | nil => simp [insertAll]
  | cons x xs ih => simp only [insertAll, List.foldl_cons] at ih ⊢; simp [ih, or_assoc]

@[simp] theorem mem_ofList {b : α} {xs : List α} : b ∈ ofList xs ↔ b ∈ xs := by
  simp [ofList]

@[simp] theorem mem_erase {a b : α} {s : OrderedSet α} : b ∈ s.erase a ↔ b ≠ a ∧ b ∈ s := by
  rw [← mem_toList, erase, s.nodup.mem_erase_iff, mem_toList]

theorem toList_insertAll_of_nodup {s : OrderedSet α} {xs : List α} (h : (s.toList ++ xs).Nodup) :
    (s.insertAll xs).toList = s.toList ++ xs := by
  induction xs generalizing s with
  | nil => simp [insertAll]
  | cons x xs ih =>
    have hx : x ∉ s.toList := by grind
    have ht : (s.insert x).toList = s.toList ++ [x] := by
      rw [toList_insert, if_neg (fun h => hx (mem_toList.2 h))]
    have := ih (s := s.insert x) (by rw [ht]; simpa using h)
    simpa [insertAll, ht] using this

/-- A list without repetition is kept as it is. -/
theorem toList_ofList_of_nodup {xs : List α} (h : xs.Nodup) : (ofList xs).toList = xs := by
  simpa [ofList] using toList_insertAll_of_nodup (s := ∅) (by simpa using h)

end OrderedSet
end DocTypes
