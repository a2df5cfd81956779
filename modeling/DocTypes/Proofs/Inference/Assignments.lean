import DocTypes.Proofs.Syntax.Places

/-!
Which assignments are collected. All that there are in a body are, wherever they stand, each once and in
the order of the source; and the search that ends at the first parameter finds what going through that
list finds.
-/
namespace DocTypes

namespace Expr

/-- The property of that name, of whatever object or class. -/
def IsProperty (property : Text) (e : Expr) : Prop :=
  (∃ object, e = .property object property) ∨ ∃ className, e = .staticProperty className property

/-- One element of the property, or the place behind its last. -/
def IsElementOf (property : Text) (e : Expr) : Prop :=
  ∃ base index, e = .element base index ∧ base.IsProperty property

lemma isPropertyNamed_iff {property : Text} {e : Expr} :
    e.isPropertyNamed property = true ↔ e.IsProperty property := by
  cases e <;> simp [isPropertyNamed, IsProperty]

end Expr

namespace PropertyAssign

variable {property : Text} {m : Method} {q : Param}

/-- The target is the property itself, or an element of it where that is recorded. -/
def IsTo (property : Text) (a : PropertyAssign) : Prop :=
  a.isElement = false ∧ a.target.IsProperty property ∨
    a.isElement = true ∧ a.target.IsElementOf property

/-- The property itself is set to a variable, and the parameter is the first of that name. -/
def Takes (m : Method) (q : Param) (a : PropertyAssign) : Prop :=
  a.isElement = false ∧ ∃ v, a.value = .var v ∧ m.param? v = some q

lemma param?_eq_some_iff {a : PropertyAssign} : a.param? m = some q ↔ a.Takes m q := by
  rw [param?, Takes]
  cases a.isElement with
  | true => simp
  | false => cases a.value <;> simp [Expr.varName?]

lemma param?_eq_none_iff {a : PropertyAssign} : a.param? m = none ↔ ∀ r, ¬a.Takes m r := by
  simp only [← param?_eq_some_iff]
  exact Option.eq_none_iff_forall_ne_some

end PropertyAssign

/-- An expression is taken for an assignment to the property exactly if it is one. -/
theorem Expr.assignTo?_eq_some_iff {property : Text} {e : Expr} {a : PropertyAssign} :
    e.assignTo? property = some a ↔ e = .assign a.target a.value ∧ a.IsTo property := by
  constructor
  · intro h
    obtain ⟨rfl, -⟩ := eq_assign_of_assignTo? h
    refine ⟨rfl, ?_⟩
    rw [assignTo?.eq_def] at h
    dsimp only at h
    split at h
    · rename_i hwhole
      exact .inl ⟨congrArg PropertyAssign.isElement (Option.some.inj h).symm,
        isPropertyNamed_iff.mp hwhole⟩
    · -- Only a target that is not the property itself is looked at as an element of it.
      split at h
      · rename_i base index htarget
        split at h
        · rename_i hbase
          exact .inr ⟨congrArg PropertyAssign.isElement (Option.some.inj h).symm,
            base, index, htarget, isPropertyNamed_iff.mp hbase⟩
        · cases h
      · cases h
  · rintro ⟨rfl, hto⟩
    obtain ⟨target, value, isElement⟩ := a
    rcases hto with ⟨rfl, hwhole⟩ | ⟨rfl, base, index, rfl, hbase⟩
    · simp [assignTo?, isPropertyNamed_iff.mpr hwhole]
    · have hpart : (Expr.element base index).isPropertyNamed property = false := rfl
      simp [assignTo?, hpart, isPropertyNamed_iff.mpr hbase]

/-- The assignments to the property with their places. -/
def placedAssignments (property : Text) (body : List Stmt) : List (List Nat × PropertyAssign) :=
  (Node.stmt (.block body)).places.filterMap fun x => (x.2.assignTo? property).map (x.1, ·)

section
variable {property : Text} {body : List Stmt}

lemma map_snd_placedAssignments :
    (placedAssignments property body).map Prod.snd = assignments property body := by
  have hvisits : Stmt.visitsList body = (Node.stmt (.block body)).places.map Prod.snd := by
    rw [Node.map_snd_places, Node.visits, Stmt.visits]
  rw [assignments_eq, hvisits, placedAssignments, List.map_filterMap, List.filterMap_map]
  simp only [Option.map_map]
  exact List.filterMap_congr fun x _ => Option.map_id'

lemma pairwise_placedAssignments :
    (placedAssignments property body).Pairwise fun x y => x.1 < y.1 := by
  refine (Node.pairwise_places _).filterMap _ fun x y hlt x' hx y' hy => ?_
  obtain ⟨a, -, rfl⟩ := Option.map_eq_some_iff.mp hx
  obtain ⟨b, -, rfl⟩ := Option.map_eq_some_iff.mp hy
  exact hlt

lemma mem_placedAssignments {place : List Nat} {a : PropertyAssign} :
    (place, a) ∈ placedAssignments property body ↔
      Stmt.exprAt? body place = some (.assign a.target a.value) ∧ a.IsTo property := by
  rw [placedAssignments, List.mem_filterMap, Stmt.exprAt?_eq_some_iff]
  simp only [Option.map_eq_some_iff, Expr.assignTo?_eq_some_iff, Prod.mk.injEq]
  constructor
  · rintro ⟨⟨p, e⟩, hvisit, b, ⟨rfl, hto⟩, rfl, rfl⟩
    exact ⟨hvisit, hto⟩
  · rintro ⟨hvisit, hto⟩
    exact ⟨_, hvisit, a, ⟨rfl, hto⟩, rfl, rfl⟩

end

/-- The collected assignments are those that stand somewhere in the body, in the order of their places;
and a property is bound to the parameter that the first of them takes which takes any. -/
theorem assignments_placed_and_bound (property : Text) :
    (∀ body : List Stmt, ∃ found : List (List Nat × PropertyAssign),
      found.map Prod.snd = assignments property body ∧
      found.Pairwise (fun x y => x.1 < y.1) ∧
      ∀ place a, (place, a) ∈ found ↔
        Stmt.exprAt? body place = some (.assign a.target a.value) ∧ a.IsTo property) ∧
    ∀ (m : Method) (q : Param), boundParam? m property = some q ↔
      ∃ before a after, assignments property m.body = before ++ a :: after ∧ a.Takes m q ∧
        ∀ b ∈ before, ∀ r, ¬b.Takes m r := by
  constructor
  · intro body
    exact ⟨placedAssignments property body, map_snd_placedAssignments, pairwise_placedAssignments,
      fun place a => mem_placedAssignments⟩
  · intro m q
    rw [boundParam?_eq, List.findSome?_eq_some_iff]
    simp only [PropertyAssign.param?_eq_some_iff, PropertyAssign.param?_eq_none_iff]

end DocTypes
