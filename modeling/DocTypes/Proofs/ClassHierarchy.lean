import DocTypes.ClassHierarchy
import Mathlib.Data.List.Nodup
import Mathlib.Logic.Relation
import Mathlib.Order.Lattice.Nat
import Mathlib.Tactic.Common

/-!
What a class hierarchy answers. The classes above a class are those that ways up lead to, the nearest
first; the search for them ends also where ways lead in a circle, since each class is found once. Neither
this nor which classes are known depends on the order in which classes were added.
-/
namespace DocTypes

namespace OrderedMap

variable {κ ν : Type} [DecidableEq κ] {m : OrderedMap κ ν} {k : κ} {v : ν}

lemma get?_eq_some_iff : m.get? k = some v ↔ (k, v) ∈ m.entries := by
  rw [get?, List.lookup_eq_some_iff]
  constructor
  · rintro ⟨before, after, heq, -⟩
    rw [heq]
    exact List.mem_append_right _ List.mem_cons_self
  · intro h
    obtain ⟨before, after, heq⟩ := List.append_of_mem h
    refine ⟨before, after, heq, fun e he => ?_⟩
    have hnodup := m.nodup_keys
    rw [heq, List.map_append, List.nodup_append] at hnodup
    have hne := hnodup.2.2 e.1 (List.mem_map_of_mem he) k List.mem_cons_self
    exact bne_iff_ne.mpr (Ne.symm hne)

end OrderedMap

namespace OrderedSet

variable {α : Type} [DecidableEq α]

/-- What is new goes to the end. -/
lemma exists_toList_insertAll (s : OrderedSet α) (xs : List α) :
    ∃ new, (s.insertAll xs).toList = s.toList ++ new ∧ ∀ a ∈ new, a ∉ s := by
  have happend : ∃ new, (s.insertAll xs).toList = s.toList ++ new := by
    induction xs generalizing s with
    | nil => exact ⟨[], (List.append_nil _).symm⟩
    | cons x xs ih =>
      obtain ⟨new, hnew⟩ := ih (s.insert x)
      rw [toList_insert] at hnew
      split at hnew
      · exact ⟨new, hnew⟩
      · exact ⟨x :: new, by rw [← List.append_cons] at hnew; exact hnew⟩
  obtain ⟨new, hnew⟩ := happend
  have hnodup := (s.insertAll xs).nodup
  rw [hnew, List.nodup_append] at hnodup
  exact ⟨new, hnew, fun a ha hs => hnodup.2.2 a hs a ha rfl⟩

end OrderedSet

namespace ClassHierarchy

/-! What is told of classes. -/

/-- The hierarchy to which classes were added with their parents, one after the other. -/
def ofClasses (classes : List (Text × List Text)) : ClassHierarchy :=
  classes.foldl (fun h c => h.addClass c.1 c.2) ∅

/-- A class with the first key was added with a parent of the second. -/
def HasParent (classes : List (Text × List Text)) (k l : Text) : Prop :=
  ∃ c ∈ classes, key c.1 = k ∧ ∃ p ∈ c.2, key p = l

/-- A way up, with its number of steps. -/
inductive Climbs (up : Text → Text → Prop) (k : Text) : Nat → Text → Prop
  | start : Climbs up k 0 k
  | step {n : Nat} {l m : Text} (way : Climbs up k n l) (last : up l m) : Climbs up k (n + 1) m

/-- The least number of steps, one at least, that lead from one class to the other. A class that is
above itself is as far from itself as the shortest circle is long. -/
noncomputable def distance (up : Text → Text → Prop) (k l : Text) : Nat :=
  sInf {n | 0 < n ∧ Climbs up k n l}

lemma transGen_iff_climbs {up : Text → Text → Prop} {k l : Text} :
    Relation.TransGen up k l ↔ ∃ n, Climbs up k (n + 1) l := by
  constructor
  · intro h
    induction h with
    | single h => exact ⟨0, .step .start h⟩
    | tail _ h ih =>
      obtain ⟨n, hn⟩ := ih
      exact ⟨n + 1, .step hn h⟩
  · rintro ⟨n, h⟩
    induction n generalizing l with
    | zero =>
      obtain _ | ⟨hstart, hlast⟩ := h
      cases hstart
      exact .single hlast
    | succ n ih =>
      obtain _ | ⟨hway, hlast⟩ := h
      exact .tail (ih hway) hlast

variable {h : ClassHierarchy} {name k l : Text} {parents : List Text}

lemma mem_parents_addClass : l ∈ (h.addClass name parents).parents k ↔
    l ∈ h.parents k ∨ key name = k ∧ ∃ p ∈ parents, key p = l := by
  rw [addClass, ClassHierarchy.parents, OrderedMap.get?_insert]
  split
  · rename_i heq
    subst heq
    simp
  · rename_i hne
    simp [ClassHierarchy.parents, Ne.symm hne]

lemma mem_keys_addClass :
    k ∈ (h.addClass name parents).direct.keys ↔ k ∈ h.direct.keys ∨ key name = k := by
  rw [addClass, OrderedMap.mem_keys_insert, eq_comm (a := k)]

lemma mem_allParents : l ∈ h.allParents ↔ ∃ k, l ∈ h.parents k := by
  simp only [allParents, OrderedMap.values, List.mem_flatten, List.mem_map, ClassHierarchy.parents]
  constructor
  · rintro ⟨v, ⟨e, he, rfl⟩, hl⟩
    exact ⟨e.1, by rwa [OrderedMap.get?_eq_some_iff.mpr he]⟩
  · rintro ⟨k, hl⟩
    cases hk : h.direct.get? k with
    | none => simp [hk] at hl
    | some v =>
      rw [hk] at hl
      exact ⟨v, ⟨(k, v), OrderedMap.get?_eq_some_iff.mp hk, rfl⟩, hl⟩

section
variable {classes : List (Text × List Text)}

/-- What each class that is added may bring about is brought about by one of them. -/
lemma ofClasses_iff {P : ClassHierarchy → Prop} {Q : Text × List Text → Prop}
    (hstep : ∀ h c, P (h.addClass c.1 c.2) ↔ P h ∨ Q c) (hempty : ¬P ∅) :
    P (ofClasses classes) ↔ ∃ c ∈ classes, Q c := by
  have hfold : ∀ h : ClassHierarchy,
      P (classes.foldl (fun h c => h.addClass c.1 c.2) h) ↔ P h ∨ ∃ c ∈ classes, Q c := by
    induction classes with
    | nil => simp
    | cons c classes ih =>
      intro h
      rw [List.foldl_cons, ih, hstep]
      simp [or_assoc]
  exact (hfold ∅).trans (or_iff_right hempty)

lemma mem_parents_ofClasses : l ∈ (ofClasses classes).parents k ↔ HasParent classes k l :=
  ofClasses_iff (P := fun h => l ∈ h.parents k) (Q := fun c => key c.1 = k ∧ ∃ p ∈ c.2, key p = l)
    (fun _ _ => mem_parents_addClass) List.not_mem_nil

lemma mem_keys_ofClasses : k ∈ (ofClasses classes).direct.keys ↔ ∃ c ∈ classes, key c.1 = k :=
  ofClasses_iff (P := fun h => k ∈ h.direct.keys) (Q := fun c => key c.1 = k)
    (fun _ _ => mem_keys_addClass) List.not_mem_nil

/-- Known is what was added, and what was named as a parent. -/
lemma isKnown_ofClasses_iff : (ofClasses classes).isKnown name = true ↔
    (∃ c ∈ classes, key c.1 = key name) ∨ ∃ k, HasParent classes k (key name) := by
  rw [isKnown, Bool.or_eq_true, List.contains_iff_mem, List.contains_iff_mem, mem_keys_ofClasses,
    mem_allParents]
  simp only [mem_parents_ofClasses]

end

/-! The search. -/

/-- The search without a bound. The first class is taken off the queue, and those of its parents that are
new go to the end of the queue and of what is found, until the queue is empty. -/
inductive Searches (h : ClassHierarchy) :
    List Text → OrderedSet Text → OrderedSet Text → Prop
  | done {found : OrderedSet Text} : Searches h [] found found
  | next {k : Text} {queue new : List Text} {found result : OrderedSet Text}
      (finds : (found.insertAll (h.parents k)).toList = found.toList ++ new)
      (rest : Searches h (queue ++ new) (found.insertAll (h.parents k)) result) :
      Searches h (k :: queue) found result

/-- The bound is never what ends the search, since all that is found is named as a parent. -/
lemma searches_spread (bound i : Nat) {found : OrderedSet Text}
    (hnamed : ∀ k ∈ found, k ∈ h.allParents) (hbound : h.allParents.length ≤ i + bound) :
    h.Searches (found.toList.drop i) found (h.spread bound i found) := by
  induction bound generalizing i found with
  | zero =>
    have hlength := (List.subperm_of_subset found.nodup hnamed).length_le
    rw [List.drop_eq_nil_of_le (by omega)]
    exact .done
  | succ bound ih =>
    rw [spread]
    cases hk : found.toList[i]? with
    | none =>
      rw [List.drop_eq_nil_of_le (List.getElem?_eq_none_iff.mp hk)]
      exact .done
    | some k =>
      obtain ⟨hi, -⟩ := List.getElem?_eq_some_iff.mp hk
      obtain ⟨new, hnew, -⟩ := OrderedSet.exists_toList_insertAll found (h.parents k)
      have hnamed' : ∀ l ∈ found.insertAll (h.parents k), l ∈ h.allParents := fun l hl =>
        (OrderedSet.mem_insertAll.mp hl).elim (hnamed l) fun hl => mem_allParents.mpr ⟨k, hl⟩
      have hrest := ih (i + 1) hnamed' (by omega)
      rw [hnew, List.drop_append_of_le_length hi] at hrest
      rw [List.drop_eq_getElem?_toList_append, hk]
      exact .next hnew hrest

theorem searches_ancestors (h : ClassHierarchy) (name : Text) :
    ∃ found, h.Searches [key name] ∅ found ∧ found.toList = h.ancestors name := by
  refine ⟨_, .next (List.nil_append _).symm ?_, rfl⟩
  refine searches_spread h.allParents.length 0 (fun k hk => ?_) (Nat.zero_add _).ge
  exact mem_allParents.mpr ⟨_, OrderedSet.mem_ofList.mp hk⟩

/-! How far what is found is. -/

/-- The class with the second key is named as a direct parent of the one with the first. -/
def Up (h : ClassHierarchy) (k l : Text) : Prop := l ∈ h.parents k

/-- In the middle of the search for what is above `c`, with the `i`-th found class next in the queue: each
class has the depth at which it was found, the depths ascend, and those still in the queue differ by one
at most. The parents of `c` and of all that was in the queue before are found. -/
structure IsLayered (h : ClassHierarchy) (c : Text) (i : Nat) (found : OrderedSet Text)
    (depth : Text → Nat) : Prop where
  climbs : ∀ k ∈ found, 0 < depth k ∧ Climbs h.Up c (depth k) k
  ascends : found.toList.Pairwise fun k l => depth k ≤ depth l
  narrow : ∀ k, found.toList[i]? = some k → ∀ l ∈ found, depth l ≤ depth k + 1
  first : ∀ k ∈ h.parents c, k ∈ found ∧ depth k ≤ 1
  closed : ∀ j < i, ∀ k, found.toList[j]? = some k →
    ∀ l ∈ h.parents k, l ∈ found ∧ depth l ≤ depth k + 1

/-- The parents of a class are the first that are found. -/
lemma isLayered_parents (h : ClassHierarchy) (c : Text) :
    h.IsLayered c 0 (.ofList (h.parents c)) fun _ => 1 where
  climbs _ hk := ⟨Nat.one_pos, .step .start (OrderedSet.mem_ofList.mp hk)⟩
  ascends := List.pairwise_of_forall fun _ _ => le_rfl
  narrow _ _ _ _ := Nat.le_add_right 1 1
  first _ hk := ⟨OrderedSet.mem_ofList.mpr hk, le_rfl⟩
  closed _ hj := absurd hj (Nat.not_lt_zero _)

section
variable {c : Text} {i : Nat} {found : OrderedSet Text} {depth : Text → Nat}

/-- What is found among the parents of `k` is one deeper than `k`. -/
def deepened (found : OrderedSet Text) (depth : Text → Nat) (k l : Text) : Nat :=
  if l ∈ found then depth l else depth k + 1

lemma deepened_of_mem (hl : l ∈ found) : deepened found depth k l = depth l := if_pos hl

lemma deepened_of_notMem (hl : l ∉ found) : deepened found depth k l = depth k + 1 := if_neg hl

namespace IsLayered

lemma deepened_le (hlayered : h.IsLayered c i found depth) (hk : found.toList[i]? = some k)
    (l : Text) : deepened found depth k l ≤ depth k + 1 := by
  by_cases hl : l ∈ found
  · rw [deepened_of_mem hl]
    exact hlayered.narrow k hk l hl
  · exact (deepened_of_notMem hl).le

lemma ascends_insertAll (hlayered : h.IsLayered c i found depth) (hk : found.toList[i]? = some k)
    (xs : List Text) : (found.insertAll xs).toList.Pairwise fun l m =>
      deepened found depth k l ≤ deepened found depth k m := by
  obtain ⟨new, hnew, hfresh⟩ := OrderedSet.exists_toList_insertAll found xs
  rw [hnew]
  refine List.pairwise_append.mpr ⟨?_, ?_, fun l _ m hm => ?_⟩
  · refine hlayered.ascends.imp_of_mem fun hl hm hle => ?_
    rwa [deepened_of_mem hl, deepened_of_mem hm]
  · refine List.pairwise_of_forall_mem_list fun l hl m hm => ?_
    rw [deepened_of_notMem (hfresh l hl), deepened_of_notMem (hfresh m hm)]
  · rw [deepened_of_notMem (hfresh m hm)]
    exact hlayered.deepened_le hk l

/-- The next class in the queue is at least as deep as the one whose parents were added. -/
lemma narrow_insertAll (hlayered : h.IsLayered c i found depth) (hk : found.toList[i]? = some k)
    {xs : List Text} {m : Text} (hm : (found.insertAll xs).toList[i + 1]? = some m) (l : Text) :
    deepened found depth k l ≤ deepened found depth k m + 1 := by
  obtain ⟨new, hnew, -⟩ := OrderedSet.exists_toList_insertAll found xs
  obtain ⟨hi, hkget⟩ := List.getElem?_eq_some_iff.mp hk
  obtain ⟨hi', hmget⟩ := List.getElem?_eq_some_iff.mp hm
  have hkget' : (found.insertAll xs).toList[i] = k := by
    simp only [hnew, List.getElem_append_left hi, hkget]
  have hle := List.pairwise_iff_getElem.mp (hlayered.ascends_insertAll hk xs) i (i + 1)
    (by omega) hi' (Nat.lt_succ_self i)
  rw [hkget', hmget, deepened_of_mem (List.mem_of_getElem? hk)] at hle
  exact (hlayered.deepened_le hk l).trans (Nat.succ_le_succ hle)

/-- One class taken off the queue. -/
lemma step (hlayered : h.IsLayered c i found depth) (hk : found.toList[i]? = some k) :
    h.IsLayered c (i + 1) (found.insertAll (h.parents k)) (deepened found depth k) where
  climbs l hl := by
    by_cases hold : l ∈ found
    · rw [deepened_of_mem hold]
      exact hlayered.climbs l hold
    · rw [deepened_of_notMem hold]
      have hup : l ∈ h.parents k := (OrderedSet.mem_insertAll.mp hl).resolve_left hold
      exact ⟨Nat.succ_pos _, .step (hlayered.climbs k (List.mem_of_getElem? hk)).2 hup⟩
  ascends := hlayered.ascends_insertAll hk _
  narrow _ hm l _ := hlayered.narrow_insertAll hk hm l
  first l hl := by
    obtain ⟨hfound, hle⟩ := hlayered.first l hl
    rw [deepened_of_mem hfound]
    exact ⟨OrderedSet.mem_insertAll.mpr (.inl hfound), hle⟩
  closed j hj m hm l hl := by
    obtain ⟨new, hnew, -⟩ := OrderedSet.exists_toList_insertAll found (h.parents k)
    obtain ⟨hi, -⟩ := List.getElem?_eq_some_iff.mp hk
    rw [hnew, List.getElem?_append_left (by omega)] at hm
    rw [deepened_of_mem (List.mem_of_getElem? hm)]
    rcases Nat.lt_succ_iff_lt_or_eq.mp hj with hj | rfl
    · obtain ⟨hfound, hle⟩ := hlayered.closed j hj m hm l hl
      rw [deepened_of_mem hfound]
      exact ⟨OrderedSet.mem_insertAll.mpr (.inl hfound), hle⟩
    · obtain rfl : k = m := Option.some.inj (hk.symm.trans hm)
      exact ⟨OrderedSet.mem_insertAll.mpr (.inr hl), hlayered.deepened_le hk l⟩

end IsLayered
end

/-- At the end nothing is left in the queue. -/
lemma Searches.exists_isLayered {c : Text} {queue : List Text} {found result : OrderedSet Text}
    (hsearch : h.Searches queue found result) : ∀ {i : Nat} {depth : Text → Nat},
    queue = found.toList.drop i → h.IsLayered c i found depth →
      ∃ j depth', h.IsLayered c j result depth' ∧ result.toList.length ≤ j := by
  induction hsearch with
  | done =>
    intro i depth hqueue hlayered
    exact ⟨i, depth, hlayered, List.drop_eq_nil_iff.mp hqueue.symm⟩
  | @next k queue new found result finds rest ih =>
    intro i depth hqueue hlayered
    have hk : found.toList[i]? = some k := by
      rw [← List.head?_drop, ← hqueue, List.head?_cons]
    obtain ⟨hi, -⟩ := List.getElem?_eq_some_iff.mp hk
    have hrest : queue = found.toList.drop (i + 1) := by
      rw [List.drop_eq_getElem?_toList_append, hk] at hqueue
      exact (List.cons.inj hqueue).2
    refine ih ?_ (hlayered.step hk)
    rw [finds, List.drop_append_of_le_length hi, hrest]

/-- When the search is over, a class is found exactly if a way leads there, and no way is shorter than its
depth. -/
lemma IsLayered.found_of_climbs {c : Text} {i : Nat} {found : OrderedSet Text} {depth : Text → Nat}
    (hlayered : h.IsLayered c i found depth) (hend : found.toList.length ≤ i) {n : Nat}
    (hway : Climbs h.Up c (n + 1) k) : k ∈ found ∧ depth k ≤ n + 1 := by
  induction n generalizing k with
  | zero =>
    obtain _ | ⟨hstart, hlast⟩ := hway
    cases hstart
    exact hlayered.first k hlast
  | succ n ih =>
    obtain _ | @⟨_, l, _, hbelow, hlast⟩ := hway
    obtain ⟨hfound, hle⟩ := ih hbelow
    obtain ⟨j, hj⟩ := List.mem_iff_getElem?.mp (OrderedSet.mem_toList.mpr hfound)
    obtain ⟨hlt, -⟩ := List.getElem?_eq_some_iff.mp hj
    obtain ⟨hk, hdepth⟩ := hlayered.closed j (by omega) l hj k hlast
    exact ⟨hk, hdepth.trans (Nat.succ_le_succ hle)⟩

lemma IsLayered.distance_eq {c : Text} {i : Nat} {found : OrderedSet Text} {depth : Text → Nat}
    (hlayered : h.IsLayered c i found depth) (hend : found.toList.length ≤ i) (hk : k ∈ found) :
    distance h.Up c k = depth k := by
  have hmem : depth k ∈ {n | 0 < n ∧ Climbs h.Up c n k} := hlayered.climbs k hk
  refine le_antisymm (Nat.sInf_le hmem) ?_
  obtain ⟨hpos, hway⟩ := Nat.sInf_mem ⟨_, hmem⟩
  obtain ⟨n, hn⟩ := Nat.exists_eq_succ_of_ne_zero hpos.ne'
  rw [hn] at hway
  rw [distance, hn]
  exact (hlayered.found_of_climbs hend hway).2

/-! The answers. -/

/-- The search for the classes above a class ends with them in layers. -/
lemma exists_isLayered_ancestors (h : ClassHierarchy) (name : Text) : ∃ found j depth,
    found.toList = h.ancestors name ∧ h.IsLayered (key name) j found depth ∧
      found.toList.length ≤ j := by
  obtain ⟨found, hsearch, hfound⟩ := searches_ancestors h name
  cases hsearch with
  | next finds rest =>
    obtain ⟨j, depth, hlayered, hend⟩ :=
      rest.exists_isLayered (i := 0) finds.symm (isLayered_parents h (key name))
    exact ⟨found, j, depth, hfound, hlayered, hend⟩

lemma mem_ancestors_iff : k ∈ h.ancestors name ↔ Relation.TransGen h.Up (key name) k := by
  obtain ⟨found, j, depth, hfound, hlayered, hend⟩ := exists_isLayered_ancestors h name
  rw [← hfound, transGen_iff_climbs]
  constructor
  · intro hk
    obtain ⟨hpos, hway⟩ := hlayered.climbs k hk
    obtain ⟨n, hn⟩ := Nat.exists_eq_succ_of_ne_zero hpos.ne'
    rw [hn] at hway
    exact ⟨n, hway⟩
  · rintro ⟨n, hway⟩
    exact (hlayered.found_of_climbs hend hway).1

lemma nodup_ancestors (h : ClassHierarchy) (name : Text) : (h.ancestors name).Nodup :=
  OrderedSet.nodup _

lemma pairwise_ancestors (h : ClassHierarchy) (name : Text) : (h.ancestors name).Pairwise fun k l =>
    distance h.Up (key name) k ≤ distance h.Up (key name) l := by
  obtain ⟨found, j, depth, hfound, hlayered, hend⟩ := exists_isLayered_ancestors h name
  rw [← hfound]
  refine hlayered.ascends.imp_of_mem fun hk hl hle => ?_
  rwa [hlayered.distance_eq hend hk, hlayered.distance_eq hend hl]

lemma isSubtype_iff {ancestor : Text} :
    h.isSubtype name ancestor = true ↔ Relation.ReflTransGen h.Up (key name) (key ancestor) := by
  rw [Relation.reflTransGen_iff_eq_or_transGen, ← mem_ancestors_iff, isSubtype, Bool.or_eq_true,
    beq_iff_eq, List.contains_iff_mem, eq_comm]

lemma up_ofClasses (classes : List (Text × List Text)) :
    (ofClasses classes).Up = HasParent classes := by
  funext k l
  exact propext mem_parents_ofClasses

/-- The classes above a class are the ends of the ways up from it, each once and the nearest first; a class
is below another if a way leads there, or if it is the same class; and the order in which classes are
added does not count. The search ends by itself. -/
theorem ancestors_and_isSubtype_ofClasses (classes : List (Text × List Text)) :
    let h := ofClasses classes
    (∀ c, (∃ found, h.Searches [key c] ∅ found ∧ found.toList = h.ancestors c) ∧
      (∀ k, k ∈ h.ancestors c ↔ Relation.TransGen (HasParent classes) (key c) k) ∧
      (h.ancestors c).Nodup ∧
      (h.ancestors c).Pairwise fun k l =>
        distance (HasParent classes) (key c) k ≤ distance (HasParent classes) (key c) l) ∧
    (∀ c d, h.isSubtype c d = true ↔
      Relation.ReflTransGen (HasParent classes) (key c) (key d)) ∧
    (∀ c, h.isSubtype c c = true) ∧
    (∀ c d e, h.isSubtype c d = true → h.isSubtype d e = true → h.isSubtype c e = true) ∧
    ∀ classes', (∀ c, c ∈ classes ↔ c ∈ classes') →
      (∀ c d, h.isSubtype c d = (ofClasses classes').isSubtype c d) ∧
        ∀ c, h.isKnown c = (ofClasses classes').isKnown c := by
  intro h
  have hup : h.Up = HasParent classes := up_ofClasses classes
  refine ⟨fun c => ⟨searches_ancestors h c, fun k => ?_, nodup_ancestors h c, ?_⟩, fun c d => ?_,
    fun c => isSubtype_iff.mpr .refl, fun c d e hcd hde => ?_, fun classes' hsame => ?_⟩
  · rw [mem_ancestors_iff, hup]
  · rw [← hup]
    exact pairwise_ancestors h c
  · rw [isSubtype_iff, hup]
  · exact isSubtype_iff.mpr ((isSubtype_iff.mp hcd).trans (isSubtype_iff.mp hde))
  · have hparent : HasParent classes = HasParent classes' := by
      funext k l
      simp only [HasParent, hsame]
    refine ⟨fun c d => ?_, fun c => ?_⟩
    · rw [Bool.eq_iff_iff, isSubtype_iff, isSubtype_iff, hup, up_ofClasses, hparent]
    · rw [Bool.eq_iff_iff, isKnown_ofClasses_iff, isKnown_ofClasses_iff, hparent]
      simp only [hsame]

/-- Two classes that are above each other, below a third that is only named. -/
theorem ancestors_and_isSubtype_ofClasses_circle :
    let classes : List (Text × List Text) :=
      [("App\\Dog", ["\\app\\pet", "App\\Animal"]), ("App\\Pet", ["App\\Dog"])]
    let h := ofClasses classes
    h.ancestors "App\\Dog" = ["app\\pet", "app\\animal", "app\\dog"] ∧
    (h.isSubtype "\\APP\\PET" "App\\Dog" = true ∧ h.isSubtype "App\\Dog" "App\\Animal" = true ∧
      h.isSubtype "\\APP\\PET" "App\\Animal" = true) ∧
    (∀ c, c ∈ classes ↔ c ∈ classes.reverse) ∧
      (∀ c d, h.isSubtype c d = (ofClasses classes.reverse).isSubtype c d) := by
  intro classes h
  obtain ⟨-, -, -, htrans, horder⟩ := ancestors_and_isSubtype_ofClasses classes
  have hpet : h.isSubtype "\\APP\\PET" "App\\Dog" = true := by decide +kernel
  have hdog : h.isSubtype "App\\Dog" "App\\Animal" = true := by decide +kernel
  have hreverse : ∀ c, c ∈ classes ↔ c ∈ classes.reverse := fun c => List.mem_reverse.symm
  exact ⟨by decide +kernel, ⟨hpet, hdog, htrans _ _ _ hpet hdog⟩, hreverse,
    (horder classes.reverse hreverse).1⟩

end ClassHierarchy
end DocTypes
