import DocTypes.Inference.Assignment

/-!
The expressions that a walk visits, as a list. Whatever a visit does, walking does it for these, from
the first to the last.
-/
namespace DocTypes

mutual

/-- The expression and, behind it, the parts that are visited. -/
def Expr.visits (e : Expr) : List Expr :=
  e ::
    match e with
    | .property object _ => object.visits
    | .element array none => array.visits
    | .element array (some index) => array.visits ++ index.visits
    | .assign target value => target.visits ++ value.visits
    | .array items => Expr.visitsList items
    | .create _ args => Expr.visitsList args
    | .methodCall object _ args => object.visits ++ Expr.visitsList args
    | .staticCall _ _ args => Expr.visitsList args
    | .functionCall _ args => Expr.visitsList args
    | .closure _ body => Stmt.visitsList body
    | .ternary condition none onFalse => condition.visits ++ onFalse.visits
    | .ternary condition (some onTrue) onFalse =>
      condition.visits ++ (onTrue.visits ++ onFalse.visits)
    | .var _ => []
    | .staticProperty _ _ => []
    | .constant _ => []
    | .literal _ => []
    | .unknown => []

def Expr.visitsList : List Expr → List Expr
  | [] => []
  | e :: es => e.visits ++ Expr.visitsList es

def Stmt.visits : Stmt → List Expr
  | .expr e => e.visits
  | .result none => []
  | .result (some e) => e.visits
  | .branch condition onTrue onFalse =>
    condition.visits ++ (Stmt.visitsList onTrue ++ Stmt.visitsList onFalse)
  | .loop subject _ body => subject.visits ++ Stmt.visitsList body
  | .block body => Stmt.visitsList body

def Stmt.visitsList : List Stmt → List Expr
  | [] => []
  | s :: ss => s.visits ++ Stmt.visitsList ss

end

section Walks

variable {m : Type → Type} [Monad m] [LawfulMonad m] {visit : Expr → m Unit}

mutual

theorem Expr.walk_eq : (e : Expr) → e.walk visit = forM e.visits visit
  | .property object _ => by simp [Expr.walk, Expr.visits, Expr.walk_eq object]
  | .element array none => by simp [Expr.walk, Expr.visits, Expr.walk_eq array]
  | .element array (some index) => by
    simp [Expr.walk, Expr.visits, Expr.walk_eq array, Expr.walk_eq index]
  | .assign target value => by
    simp [Expr.walk, Expr.visits, Expr.walk_eq target, Expr.walk_eq value]
  | .array items => by simp [Expr.walk, Expr.visits, Expr.walkList_eq items]
  | .create _ args => by simp [Expr.walk, Expr.visits, Expr.walkList_eq args]
  | .methodCall object _ args => by
    simp [Expr.walk, Expr.visits, Expr.walk_eq object, Expr.walkList_eq args]
  | .staticCall _ _ args => by simp [Expr.walk, Expr.visits, Expr.walkList_eq args]
  | .functionCall _ args => by simp [Expr.walk, Expr.visits, Expr.walkList_eq args]
  | .closure _ body => by simp [Expr.walk, Expr.visits, Stmt.walkList_eq body]
  | .ternary condition none onFalse => by
    simp [Expr.walk, Expr.visits, Expr.walk_eq condition, Expr.walk_eq onFalse]
  | .ternary condition (some onTrue) onFalse => by
    simp [Expr.walk, Expr.visits, Expr.walk_eq condition, Expr.walk_eq onTrue,
      Expr.walk_eq onFalse]
  | .var _ => by simp [Expr.walk, Expr.visits]
  | .staticProperty _ _ => by simp [Expr.walk, Expr.visits]
  | .constant _ => by simp [Expr.walk, Expr.visits]
  | .literal _ => by simp [Expr.walk, Expr.visits]
  | .unknown => by simp [Expr.walk, Expr.visits]

theorem Expr.walkList_eq : (es : List Expr) →
    Expr.walkList visit es = forM (Expr.visitsList es) visit
  | [] => by simp [Expr.walkList, Expr.visitsList]
  | e :: es => by
    simp [Expr.walkList, Expr.visitsList, Expr.walk_eq e, Expr.walkList_eq es]

theorem Stmt.walk_eq : (s : Stmt) → s.walk visit = forM s.visits visit
  | .expr e => by simp [Stmt.walk, Stmt.visits, Expr.walk_eq e]
  | .result none => by simp [Stmt.walk, Stmt.visits]
  | .result (some e) => by simp [Stmt.walk, Stmt.visits, Expr.walk_eq e]
  | .branch condition onTrue onFalse => by
    simp [Stmt.walk, Stmt.visits, Expr.walk_eq condition, Stmt.walkList_eq onTrue,
      Stmt.walkList_eq onFalse]
  | .loop subject _ body => by
    simp [Stmt.walk, Stmt.visits, Expr.walk_eq subject, Stmt.walkList_eq body]
  | .block body => by simp [Stmt.walk, Stmt.visits, Stmt.walkList_eq body]

/-- A walk visits the listed expressions, one after the other. -/
theorem Stmt.walkList_eq : (ss : List Stmt) →
    Stmt.walkList visit ss = forM (Stmt.visitsList ss) visit
  | [] => by simp [Stmt.walkList, Stmt.visitsList]
  | s :: ss => by
    simp [Stmt.walkList, Stmt.visitsList, Stmt.walk_eq s, Stmt.walkList_eq ss]

end

end Walks

/-! What is collected and what is searched for along a walk. -/

/-- Each visited assignment is collected once. -/
theorem assignments_eq (property : Text) (body : List Stmt) :
    assignments property body =
      (Stmt.visitsList body).filterMap (·.assignTo? property) := by
  have key : ∀ (es : List Expr) (found : List PropertyAssign),
      ((forM es fun e => (modify (· ++ (e.assignTo? property).toList) :
        StateM (List PropertyAssign) Unit)).run found).2 =
        found ++ es.filterMap (·.assignTo? property) := by
    intro es
    induction es with
    | nil => exact fun found => (List.append_nil found).symm
    | cons e es ih =>
      intro found
      rw [List.forM_cons]
      refine (ih _).trans ?_
      cases h : e.assignTo? property <;> simp [h]
  rw [assignments, Stmt.walkList_eq]
  exact key _ []

/-- A visit that throws what it looks for throws what is found first. -/
theorem forM_throw {α ε : Type} {visit : α → Except ε Unit} (found? : α → Option ε)
    (hvisit : ∀ a, visit a = (found? a).elim (.ok ()) .error) (items : List α) :
    forM items visit = (items.findSome? found?).elim (.ok ()) .error := by
  induction items with
  | nil => rfl
  | cons a items ih =>
    rw [List.forM_cons, List.findSome?_cons, hvisit]
    cases found? a with
    | none => exact ih
    | some found => rfl

/-- The search ends at the first assignment that gives the value of a parameter. -/
theorem boundParam?_eq (m : Method) (property : Text) :
    boundParam? m property = (assignments property m.body).findSome? (·.param? m) := by
  rw [assignments_eq, ← List.head?_filterMap, List.filterMap_filterMap, List.head?_filterMap,
    boundParam?, Stmt.walkList_eq, forM_throw fun e => (e.assignTo? property).bind (·.param? m)]
  · cases (Stmt.visitsList m.body).findSome? _ <;> rfl
  · intro e
    cases (e.assignTo? property).bind (·.param? m) <;> rfl

theorem Expr.eq_assign_of_assignTo? {property : Text} {e : Expr} {a : PropertyAssign}
    (h : e.assignTo? property = some a) : e = .assign a.target a.value ∧
      (a.isElement = false → a.target.isPropertyNamed property = true) := by
  cases e with
  | assign target value =>
    rw [Expr.assignTo?.eq_def] at h
    dsimp only at h
    split at h
    · cases h
      exact ⟨rfl, fun _ => ‹_›⟩
    · split at h
      · split at h
        · cases h
          exact ⟨rfl, nofun⟩
        · cases h
      · cases h
  | _ => cases h

/-- The value of a parameter is given to the property: a variable of its name is assigned to the property
as a whole. -/
theorem param?_assignTo?_eq_some_iff {m : Method} {property : Text} {e : Expr} {q : Param} :
    (e.assignTo? property).bind (·.param? m) = some q ↔ m.param? q.name = some q ∧
      ∃ target, target.isPropertyNamed property = true ∧ e = .assign target (.var q.name) := by
  constructor
  · intro h
    obtain ⟨a, ha, hparam⟩ := Option.bind_eq_some_iff.mp h
    rw [PropertyAssign.param?] at hparam
    split at hparam
    · cases hparam
    · rename_i helement
      obtain ⟨v, hv, hq⟩ := Option.bind_eq_some_iff.mp hparam
      obtain rfl : q.name = v := by simpa using List.find?_some hq
      have hvalue : a.value = .var q.name := by
        cases hval : a.value <;> rw [hval] at hv <;> cases hv
        rfl
      obtain ⟨heq, htarget⟩ := Expr.eq_assign_of_assignTo? ha
      rw [hvalue] at heq
      exact ⟨hq, a.target, htarget (eq_false_of_ne_true helement), heq⟩
  · rintro ⟨hq, target, htarget, rfl⟩
    simp [Expr.assignTo?, htarget, PropertyAssign.param?, Expr.varName?, hq]

/-- What is found is the parameter that is named in a visited assignment to the whole property. -/
theorem exists_visit_of_boundParam? {m : Method} {property : Text} {q : Param}
    (h : boundParam? m property = some q) :
    m.param? q.name = some q ∧ ∃ target, target.isPropertyNamed property = true ∧
      .assign target (.var q.name) ∈ Stmt.visitsList m.body := by
  rw [boundParam?_eq, assignments_eq] at h
  obtain ⟨a, ha, hparam⟩ := List.exists_of_findSome?_eq_some h
  obtain ⟨e, he, hassign⟩ := List.mem_filterMap.mp ha
  obtain ⟨hq, target, htarget, rfl⟩ :=
    param?_assignTo?_eq_some_iff.mp (Option.bind_eq_some_iff.mpr ⟨a, hassign, hparam⟩)
  exact ⟨hq, target, htarget, he⟩

/-- The same of the assignments that are collected. -/
theorem exists_assignment_of_boundParam? {m : Method} {property : Text} {q : Param}
    (h : boundParam? m property = some q) :
    m.param? q.name = some q ∧ ∃ a ∈ assignments property m.body,
      a.isElement = false ∧ a.value = .var q.name := by
  obtain ⟨hq, target, htarget, hvisit⟩ := exists_visit_of_boundParam? h
  refine ⟨hq, ⟨target, .var q.name, false⟩, ?_, rfl, rfl⟩
  rw [assignments_eq]
  exact List.mem_filterMap.mpr ⟨_, hvisit, by simp [Expr.assignTo?, htarget]⟩

end DocTypes
