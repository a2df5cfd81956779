import DocTypes.Proofs.Syntax.Occurrence

/-!
Which variable a property is set from. The search for the parameter goes into closures and compares
names only, so a variable that a closure declares itself is taken for the parameter of the method.
-/
namespace DocTypes

namespace Method

/-- The expression is in the body, and the closures around it there declare these variables. -/
def HasExpr (m : Method) (e : Expr) (hidden : List Text) : Prop :=
  ∃ s ∈ m.body, Node.HasExpr e hidden (.stmt s)

/-- The variable is assigned to the property as a whole, within closures that declare these variables. -/
def Sets (m : Method) (property v : Text) (hidden : List Text) : Prop :=
  ∃ target, target.isPropertyNamed property = true ∧ m.HasExpr (.assign target (.var v)) hidden

/-- The visited expressions, each with the variables that closures around it declare. -/
def scopedVisits (m : Method) : List (List Text × Expr) :=
  m.body.flatMap fun s => (Node.stmt s).scopedVisits []

/-- The parameters that are assigned to the property as a whole, and not within a closure that declares
the variable itself. -/
def freeSources (m : Method) (property : Text) : List Param :=
  m.scopedVisits.filterMap fun x =>
    ((x.2.assignTo? property).bind (·.param? m)).filter fun q => !x.1.contains q.name

variable {m : Method} {property : Text} {q : Param}

lemma mem_scopedVisits {hidden : List Text} {e : Expr} :
    (hidden, e) ∈ m.scopedVisits ↔ m.HasExpr e hidden := by
  rw [scopedVisits, List.mem_flatMap]
  simp [HasExpr, Node.mem_scopedVisits_iff]

lemma mem_visits {e : Expr} : e ∈ Stmt.visitsList m.body ↔ ∃ hidden, m.HasExpr e hidden := by
  have hvisits : Stmt.visitsList m.body = m.scopedVisits.map Prod.snd := by
    rw [Stmt.visitsList_eq, scopedVisits, List.map_flatMap, List.flatMap_map]
    simp only [Node.map_snd_scopedVisits]
  simp [hvisits, mem_scopedVisits]

lemma mem_freeSources : q ∈ m.freeSources property ↔
    m.param? q.name = some q ∧ ∃ hidden, m.Sets property q.name hidden ∧ q.name ∉ hidden := by
  rw [freeSources, List.mem_filterMap]
  simp only [Option.filter_eq_some_iff, param?_assignTo?_eq_some_iff, Bool.not_eq_true',
    List.contains_eq_mem, decide_eq_false_iff_not]
  constructor
  · rintro ⟨⟨hidden, e⟩, hvisit, ⟨hq, target, htarget, rfl⟩, hfree⟩
    exact ⟨hq, hidden, ⟨target, htarget, mem_scopedVisits.mp hvisit⟩, hfree⟩
  · rintro ⟨hq, hidden, ⟨target, htarget, h⟩, hfree⟩
    exact ⟨⟨hidden, _⟩, mem_scopedVisits.mpr h, ⟨hq, target, htarget, rfl⟩, hfree⟩

/-- A property is set by a variable of the name of the parameter that is found for it. It is set from
the parameter itself exactly if the parameter is among the sources that are found with regard to the
variables of closures, as it is if no closure declares a variable of its name. -/
theorem sets_and_free_iff (hq : boundParam? m property = some q) :
    (∃ hidden, m.Sets property q.name hidden) ∧
    ((∃ hidden, m.Sets property q.name hidden ∧ q.name ∉ hidden) ↔ q ∈ m.freeSources property) ∧
    ((∀ params body hidden, m.HasExpr (.closure params body) hidden →
      q.name ∉ params.map (·.name)) → q ∈ m.freeSources property) := by
  obtain ⟨hparam, target, htarget, hvisit⟩ := exists_visit_of_boundParam? hq
  obtain ⟨hidden, h⟩ := mem_visits.mp hvisit
  have hsets : m.Sets property q.name hidden := ⟨target, htarget, h⟩
  refine ⟨⟨hidden, hsets⟩, ?_, fun hclosures => ?_⟩
  · rw [mem_freeSources, and_iff_right hparam]
  · refine mem_freeSources.mpr ⟨hparam, hidden, hsets, fun hcaptured => ?_⟩
    obtain ⟨s, hs, h⟩ := h
    obtain ⟨params, body, outer, hclosure, hname⟩ := h.exists_closure hcaptured
    exact hclosures params body outer ⟨s, hs, hclosure⟩ hname

/-- A closure that sets the property later, with a parameter of another name. -/
theorem sets_free_within_closure :
    let q : Param := ⟨"name", some (.word "string"), none, false⟩
    let w : Param := ⟨"force", some (.word "bool"), none, false⟩
    let m : Method := { name := "__construct", params := [q]
                        body := [.expr (.assign (.var "load")
                          (.closure [w] [.assignThis "name" (.var "name")]))] }
    boundParam? m "name" = some q ∧
      ∃ hidden, m.Sets "name" q.name hidden ∧ q.name ∉ hidden := by
  intro q w m
  have hq : boundParam? m "name" = some q := rfl
  obtain ⟨-, hiff, hfree⟩ := sets_and_free_iff hq
  refine ⟨hq, hiff.mpr (hfree fun params body hidden h => ?_)⟩
  have hvisit : .closure params body ∈ Stmt.visitsList m.body := mem_visits.mpr ⟨hidden, h⟩
  simp [m, Stmt.visitsList, Stmt.visits, Expr.visits, Stmt.assignThis, Expr.this] at hvisit
  obtain ⟨rfl, -⟩ := hvisit
  decide

/-- The property is only set within a closure that has a parameter of that name itself, and is taken to be
set from the parameter of the method. -/
theorem captured_by_closure :
    let q : Param := ⟨"v", some (.word "string"), none, false⟩
    let v : Param := ⟨"v", some (.word "int"), none, false⟩
    let m : Method := { name := "__construct", params := [q]
                        body := [.expr (.assign (.var "f")
                          (.closure [v] [.assignThis "x" (.var "v")]))] }
    boundParam? m "x" = some q ∧ ¬ ∃ hidden, m.Sets "x" q.name hidden ∧ q.name ∉ hidden := by
  intro q v m
  refine ⟨rfl, ?_⟩
  rintro ⟨hidden, ⟨target, -, s, hs, h⟩, hfree⟩
  obtain rfl := List.mem_singleton.mp hs
  cases h with
  | within hp h =>
    obtain rfl := List.mem_singleton.mp hp
    cases h with
    | within hp h =>
      simp only [Node.parts, List.mem_cons, List.not_mem_nil, or_false] at hp
      rcases hp with rfl | rfl
      · cases h with
        | within hp _ => exact List.not_mem_nil hp
      · cases h with
        | within _ _ => exact hfree (by simp [Node.declared, v, q])

end Method
end DocTypes
