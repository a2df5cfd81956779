import DocTypes.Doc.TypeEdit
import Mathlib.Tactic.ByContra

/-!
Edits that tell whether they changed the comment. All edits of tags store what they made in the same
way, or write the first comment of a declaration, and what they tell is true either way: also where
a comment is taken away, and for a comment that is there and empty.
-/
namespace DocTypes

namespace DocSlot

/-- The edit kept the scope, and tells whether it changed the text. -/
structure IsReported (s : DocSlot) (r : DocSlot × Bool) : Prop where
  scope : r.1.scope = s.scope
  flag : r.2 = true ↔ s.text ≠ r.1.text

/-- An edit that tells of no change made none. -/
lemma IsReported.eq_self {s : DocSlot} {r : DocSlot × Bool} (h : s.IsReported r)
    (hr : r.2 = false) : r.1 = s := by
  obtain ⟨⟨text, scope⟩, changed⟩ := r
  obtain rfl : scope = s.scope := h.scope
  have htext : s.text = text := by
    by_contra hne
    rw [h.flag.mpr hne] at hr
    cases hr
  rw [← htext]

/-- An edit that leaves the slot as it is tells of no change. -/
lemma IsReported.eq_of_fst_eq {s : DocSlot} {r : DocSlot × Bool} (h : s.IsReported r)
    (hr : r.1 = s) : r = (s, false) := by
  refine Prod.ext hr (Bool.eq_false_iff.mpr fun hflag => ?_)
  rw [h.flag, hr] at hflag
  exact hflag rfl

lemma isReported_self (s : DocSlot) : s.IsReported (s, false) := ⟨rfl, by simp⟩

lemma isReported_writeBack (s : DocSlot) (c : DocComment) : s.IsReported (s.writeBack c) := by
  rw [writeBack]
  split
  · exact s.isReported_self
  · rename_i current hcurrent
    split
    · exact ⟨rfl, by simp [hcurrent]⟩
    · split
      · exact s.isReported_self
      · rename_i hne
        exact ⟨rfl, by simp [hcurrent, Ne.symm hne]⟩

lemma isReported_editTree (f : DocTree → DocTree) (s : DocSlot) : s.IsReported (s.editTree f) := by
  rw [editTree]
  split
  · exact s.isReported_self
  · exact isReported_writeBack s _

lemma isReported_create (t : Tag Text) {s : DocSlot} (hs : s.text = none) :
    s.IsReported (s.create t) := ⟨rfl, by simp [create, hs]⟩

lemma isReported_addTag (t : Tag Text) (s : DocSlot) : s.IsReported (s.addTag t) := by
  rw [addTag]
  split
  · exact isReported_editTree _ s
  · rename_i hnone
    exact isReported_create t (Option.not_isSome_iff_eq_none.mp hnone)

lemma isReported_setTag (t : Tag Text) (s : DocSlot) : s.IsReported (s.setTag t) := by
  rw [setTag]
  split
  · exact isReported_editTree _ s
  · rename_i hnone
    exact isReported_create t (Option.not_isSome_iff_eq_none.mp hnone)

lemma isReported_removeParam (name : Text) (s : DocSlot) : s.IsReported (s.removeParam name) := by
  rw [removeParam]
  exact isReported_editTree _ s

lemma isReported_changeTypeOrSubtypes (isSubtype : Text → Text → Bool) (old new : Text)
    (s : DocSlot) : s.IsReported (s.changeTypeOrSubtypes isSubtype old new) := by
  rw [changeTypeOrSubtypes]
  split
  · exact isReported_editTree _ s
  · exact s.isReported_self

lemma isReported_changeVar (types : TypeSet) (s : DocSlot) : s.IsReported (s.changeVar types) := by
  rw [changeVar]
  split
  · exact s.isReported_self
  · exact isReported_setTag _ s

lemma isReported_addReturn (type : Text) (s : DocSlot) : s.IsReported (s.addReturn type) := by
  rw [addReturn]
  split
  · exact s.isReported_self
  · exact isReported_setTag _ s

end DocSlot

/-- The edits of tags, with what they are given. -/
inductive TagEdit where
  | add (t : Tag Text)
  | remove (name : Text)
  | removeParam (name : Text)
  | rename (old new : Text)
  | changeType (old new : Text)
  | changeTypeOrSubtypes (isSubtype : Text → Text → Bool) (old new : Text)
  | changeVar (types : TypeSet)
  | addReturn (type : Text)
  | underscoresToNamespaces (start : Text) (excluded : List Text)

namespace TagEdit

def apply (e : TagEdit) (s : DocSlot) : DocSlot × Bool :=
  match e with
  | .add t => s.addTag t
  | .remove name => s.removeTag name
  | .removeParam name => s.removeParam name
  | .rename old new => s.renameTag old new
  | .changeType old new => s.changeType old new
  | .changeTypeOrSubtypes isSubtype old new => s.changeTypeOrSubtypes isSubtype old new
  | .changeVar types => s.changeVar types
  | .addReturn type => s.addReturn type
  | .underscoresToNamespaces start excluded => s.underscoresToNamespaces start excluded

/-- One edit after the other, with what each of them tells. -/
def run : List TagEdit → DocSlot → DocSlot × List Bool
  | [], s => (s, [])
  | e :: es, s =>
    let (s, changed) := e.apply s
    let (s, rest) := run es s
    (s, changed :: rest)

lemma isReported_apply (e : TagEdit) (s : DocSlot) : s.IsReported (e.apply s) := by
  cases e with
  | add t => exact s.isReported_addTag t
  | remove name => exact s.isReported_editTree _
  | removeParam name => exact s.isReported_removeParam name
  | rename old new => exact s.isReported_editTree _
  | changeType old new => exact s.isReported_changeTypeOrSubtypes _ old new
  | changeTypeOrSubtypes isSubtype old new => exact s.isReported_changeTypeOrSubtypes _ old new
  | changeVar types => exact s.isReported_changeVar types
  | addReturn type => exact s.isReported_addReturn type
  | underscoresToNamespaces start excluded => exact s.isReported_editTree _

/-- Every edit keeps the scope, and tells that it changed the comment exactly where the comment is
another afterwards: another text, one where there was none, or none where there was one. -/
theorem flag_apply_iff (e : TagEdit) (s : DocSlot) :
    (e.apply s).1.scope = s.scope ∧ ((e.apply s).2 = true ↔ (e.apply s).1.text ≠ s.text) :=
  ⟨(e.isReported_apply s).scope, (e.isReported_apply s).flag.trans ne_comm⟩

/-- An empty comment is taken away by an edit that finds nothing in it, and this is told. -/
example : (remove "var").apply ⟨some [], none⟩ = (⟨none, none⟩, true) := by decide +kernel

/-- Edits that all tell of no change made none. -/
theorem run_eq_self {es : List TagEdit} {s : DocSlot} (h : true ∉ (run es s).2) :
    (run es s).1 = s := by
  induction es generalizing s with
  | nil => rfl
  | cons e es ih =>
    rw [run, List.mem_cons, not_or] at h
    have he : (e.apply s).1 = s :=
      (e.isReported_apply s).eq_self (Bool.eq_false_iff.mpr (Ne.symm h.1))
    rw [run]
    exact (ih h.2).trans he

end TagEdit
end DocTypes
