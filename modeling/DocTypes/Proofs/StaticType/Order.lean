import DocTypes.StaticType.Basic
import Mathlib.Data.List.Sort

/-!
The order of types is a strict total order, so the members of a union or an intersection are told by
what occurs among them, however often and in whatever order.
-/
namespace DocTypes

namespace Text

lemma order_swap (s t : Text) : (order s t).swap = order t s := by
  induction s generalizing t with
  | nil => cases t <;> rfl
  | cons c s ih =>
    cases t with
    | nil => rfl
    | cons d t => rw [order, order, Ordering.swap_then, ih, Nat.compare_swap]

lemma order_trans {s t u : Text} (h : order s t = .lt) (h' : order t u = .lt) :
    order s u = .lt := by
  induction s generalizing t u with
  | nil =>
    cases u with
    | nil => cases t <;> simp [order] at h h'
    | cons e u => rfl
  | cons c s ih =>
    cases t with
    | nil => simp [order] at h
    | cons d t =>
      cases u with
      | nil => simp [order] at h'
      | cons e u =>
        simp only [order, Ordering.then_eq_lt, Nat.compare_eq_lt, Nat.compare_eq_eq] at h h' ⊢
        rcases h with h | ⟨hcd, h⟩
        · rcases h' with h' | ⟨hde, -⟩
          · exact .inl (h.trans h')
          · exact .inl (hde ▸ h)
        · rcases h' with h' | ⟨hde, h'⟩
          · exact .inl (hcd ▸ h')
          · exact .inr ⟨hcd.trans hde, ih h h'⟩

end Text

namespace StaticType

mutual

theorem order_swap : (t u : StaticType) → (order t u).swap = order u t
  | .named n, u => by cases u <;> simp [order, kindRank, Text.order_swap, Nat.compare_swap]
  | .array t, u => by cases u <;> simp [order, kindRank, order_swap t, Nat.compare_swap]
  | .primitive p, u => by cases u <;> simp [order, kindRank, Nat.compare_swap]
  | .union ts, u => by cases u <;> simp [order, kindRank, orderMembers_swap ts, Nat.compare_swap]
  | .intersection ts, u => by
    cases u <;> simp [order, kindRank, orderMembers_swap ts, Nat.compare_swap]

theorem orderMembers_swap : (ts us : List StaticType) →
    (orderMembers ts us).swap = orderMembers us ts
  | [], us => by cases us <;> rfl
  | t :: ts, us => by
    cases us with
    | nil => rfl
    | cons u us =>
      rw [orderMembers, orderMembers, Ordering.swap_then, order_swap t, orderMembers_swap ts]

end

mutual

/-- Of three types in a row either the first and the last differ in kind, or all are of one kind and
compare by their contents. -/
theorem order_trans : (t : StaticType) → ∀ {u v : StaticType}, order t u = .lt →
    order u v = .lt → order t v = .lt
  | .named n, u, v, h, h' => by
    cases u <;> cases v <;> simp [order, kindRank, Nat.compare_eq_lt] at h h' ⊢
    exact Text.order_trans h h'
  | .array t, u, v, h, h' => by
    cases u <;> cases v <;> simp [order, kindRank, Nat.compare_eq_lt] at h h' ⊢
    exact order_trans t h h'
  | .primitive p, u, v, h, h' => by
    cases u <;> cases v <;> simp [order, kindRank, Nat.compare_eq_lt] at h h' ⊢
    exact h.trans h'
  | .union ts, u, v, h, h' => by
    cases u <;> cases v <;> simp [order, kindRank, Nat.compare_eq_lt] at h h' ⊢
    exact orderMembers_trans ts h h'
  | .intersection ts, u, v, h, h' => by
    cases u <;> cases v <;> simp [order, kindRank, Nat.compare_eq_lt] at h h' ⊢
    exact orderMembers_trans ts h h'

theorem orderMembers_trans : (ts : List StaticType) → ∀ {us vs : List StaticType},
    orderMembers ts us = .lt → orderMembers us vs = .lt → orderMembers ts vs = .lt
  | [], us, vs, h, h' => by
    cases us <;> cases vs <;> simp [orderMembers] at h h' ⊢
  | t :: ts, us, vs, h, h' => by
    cases us with
    | nil => simp [orderMembers] at h
    | cons u us =>
      cases vs with
      | nil => simp [orderMembers] at h'
      | cons v vs =>
        simp only [orderMembers, Ordering.then_eq_lt, order_eq_iff] at h h' ⊢
        rcases h with h | ⟨rfl, h⟩
        · rcases h' with h' | ⟨rfl, -⟩
          · exact .inl (order_trans t h h')
          · exact .inl h
        · rcases h' with h' | ⟨rfl, h'⟩
          · exact .inl h'
          · exact .inr ⟨rfl, orderMembers_trans ts h h'⟩

end

/-! Members. -/

/-- Strictly ascending. -/
def IsAscending (ts : List StaticType) : Prop := ts.Pairwise fun t u => order t u = .lt

lemma order_of_gt {t u : StaticType} (h : order t u = .gt) : order u t = .lt := by
  rw [← order_swap, h]
  rfl

lemma isAscending_insertMember (t : StaticType) {ts : List StaticType} (h : IsAscending ts) :
    IsAscending (insertMember t ts) := by
  induction ts with
  | nil => exact List.pairwise_singleton _ t
  | cons u us ih =>
    rw [IsAscending, List.pairwise_cons] at h
    rw [insertMember]
    cases htu : order t u with
    | lt =>
      refine List.pairwise_cons.mpr ⟨fun v hv => ?_, List.pairwise_cons.mpr h⟩
      rcases List.mem_cons.mp hv with rfl | hv
      · exact htu
      · exact order_trans t htu (h.1 v hv)
    | eq => exact List.pairwise_cons.mpr h
    | gt =>
      refine List.pairwise_cons.mpr ⟨fun v hv => ?_, ih h.2⟩
      rcases mem_insertMember.mp hv with rfl | hv
      · exact order_of_gt htu
      · exact h.1 v hv

lemma isAscending_memberSet (ts : List StaticType) : IsAscending (memberSet ts) := by
  induction ts with
  | nil => exact .nil
  | cons t ts ih => exact isAscending_insertMember t ih

/-- No type is below itself, and no two types are each below the other. -/
lemma order_asymm {t u : StaticType} (h : order t u = .lt) : order u t ≠ .lt := by
  rw [← order_swap, h]
  decide

lemma IsAscending.nodup {ts : List StaticType} (h : IsAscending ts) : ts.Nodup :=
  h.imp fun htu heq => by
    subst heq
    exact order_asymm htu htu

/-- Members are a set. -/
theorem memberSet_congr {ts us : List StaticType} (h : ∀ t, t ∈ ts ↔ t ∈ us) :
    memberSet ts = memberSet us := by
  have hts := isAscending_memberSet ts
  have hus := isAscending_memberSet us
  have hperm : (memberSet ts).Perm (memberSet us) := by
    rw [List.perm_ext_iff_of_nodup hts.nodup hus.nodup]
    simpa using h
  exact hperm.eq_of_pairwise (fun t u _ _ htu hut => absurd hut (order_asymm htu)) hts hus

end StaticType
end DocTypes
