/-!
Finite maps that list their keys in the order in which they were first given a value.
-/
namespace DocTypes

structure OrderedMap (κ ν : Type) where
  entries : List (κ × ν)
  nodup_keys : (entries.map (·.1)).Nodup
  deriving DecidableEq

namespace OrderedMap

variable {κ ν : Type}

instance : EmptyCollection (OrderedMap κ ν) := ⟨⟨[], List.nodup_nil⟩⟩

instance : Inhabited (OrderedMap κ ν) := ⟨∅⟩

def keys (m : OrderedMap κ ν) : List κ := m.entries.map (·.1)

def values (m : OrderedMap κ ν) : List ν := m.entries.map (·.2)

@[simp] theorem entries_empty : (∅ : OrderedMap κ ν).entries = [] := rfl

variable [DecidableEq κ]

def get? (m : OrderedMap κ ν) (k : κ) : Option ν := m.entries.lookup k

/-- Overwrites the value of `k` where it stands, or adds `k` at the end. -/
def putEntry (k : κ) (v : ν) : List (κ × ν) → List (κ × ν)
  | [] => [(k, v)]
  | e :: es => if e.1 = k then (k, v) :: es else e :: putEntry k v es

theorem map_fst_putEntry (k : κ) (v : ν) (es : List (κ × ν)) :
    (putEntry k v es).map (·.1) =
      if k ∈ es.map (·.1) then es.map (·.1) else es.map (·.1) ++ [k] := by
  induction es with
  | nil => simp [putEntry]
  | cons e es ih => grind [putEntry]

/-- A new key goes to the end; a key already present keeps its place and takes the new value. -/
def insert (k : κ) (v : ν) (m : OrderedMap κ ν) : OrderedMap κ ν :=
  ⟨putEntry k v m.entries, by
    rw [map_fst_putEntry]
    split
    · exact m.nodup_keys
    · rename_i h
      refine List.nodup_append.2 ⟨m.nodup_keys, by simp, ?_⟩
      intro b hb c hc
      rintro rfl
      exact h (List.mem_singleton.1 hc ▸ hb)⟩

def ofList (es : List (κ × ν)) : OrderedMap κ ν :=
  es.foldl (fun m e => m.insert e.1 e.2) ∅

theorem keys_insert (k : κ) (v : ν) (m : OrderedMap κ ν) :
    (m.insert k v).keys = if k ∈ m.keys then m.keys else m.keys ++ [k] :=
  map_fst_putEntry k v m.entries

theorem mem_keys_insert {k j : κ} {v : ν} {m : OrderedMap κ ν} :
    j ∈ (m.insert k v).keys ↔ j ∈ m.keys ∨ j = k := by
  rw [keys_insert]
  split
  · exact ⟨.inl, fun h => h.elim id fun h => h ▸ ‹_›⟩
  · simp

theorem lookup_putEntry (k j : κ) (v : ν) (es : List (κ × ν)) :
    (putEntry k v es).lookup j = if j = k then some v else es.lookup j := by
  induction es with
  | nil => by_cases h : j = k <;> simp [putEntry, h]
  | cons e es ih =>
    unfold putEntry
    by_cases he : e.1 = k
    · by_cases h : j = k <;> grind
    · by_cases h : j = k <;> grind

@[simp] theorem get?_insert (k j : κ) (v : ν) (m : OrderedMap κ ν) :
    (m.insert k v).get? j = if j = k then some v else m.get? j :=
  lookup_putEntry k j v m.entries

end OrderedMap
end DocTypes
