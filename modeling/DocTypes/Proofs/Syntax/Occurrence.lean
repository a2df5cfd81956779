import DocTypes.Proofs.Syntax.Visits
import Mathlib.Tactic.Common

/-!
Where an expression stands within another or within a statement. The parameters of a closure hide
variables of the same names from its body; a walk visits the body all the same, and knows nothing of the
names.
-/
namespace DocTypes

/-- A place in the body of a method. -/
inductive Node where
  | expr (e : Expr)
  | stmt (s : Stmt)

namespace Node

/-- What is directly within a node, but for the defaults of closure parameters. -/
def parts : Node → List Node
  | .expr (.property object _) => [.expr object]
  | .expr (.element array index) => .expr array :: index.toList.map .expr
  | .expr (.assign target value) => [.expr target, .expr value]
  | .expr (.array items) => items.map .expr
  | .expr (.create _ args) => args.map .expr
  | .expr (.methodCall object _ args) => .expr object :: args.map .expr
  | .expr (.staticCall _ _ args) => args.map .expr
  | .expr (.functionCall _ args) => args.map .expr
  | .expr (.closure _ body) => body.map .stmt
  | .expr (.ternary condition onTrue onFalse) =>
    .expr condition :: (onTrue.toList.map .expr ++ [.expr onFalse])
  | .expr (.var _) => []
  | .expr (.staticProperty _ _) => []
  | .expr (.constant _) => []
  | .expr (.literal _) => []
  | .expr .unknown => []
  | .stmt (.expr e) => [.expr e]
  | .stmt (.result e) => e.toList.map .expr
  | .stmt (.branch condition onTrue onFalse) =>
    .expr condition :: (onTrue.map .stmt ++ onFalse.map .stmt)
  | .stmt (.loop subject _ body) => .expr subject :: body.map .stmt
  | .stmt (.block body) => body.map .stmt

theorem sizeOf_lt_of_mem_parts {n p : Node} (h : p ∈ n.parts) : sizeOf p < sizeOf n := by
  fun_cases parts n <;> simp only [parts] at h <;> simp
  -- A part is named in the constructor or stands in one of its lists.
  all_goals grind [→ List.sizeOf_lt_of_mem]

/-- The variables that a node declares for what is within it. -/
def declared : Node → List Text
  | .expr (.closure params _) => params.map (·.name)
  | _ => []

/-- The node itself, if it is an expression. -/
def expr? : Node → Option Expr
  | .expr e => some e
  | .stmt _ => none

/-- The expressions that a walk visits. -/
def visits : Node → List Expr
  | .expr e => e.visits
  | .stmt s => s.visits

/-- The expressions that a walk visits, each with the variables that closures around it declare. -/
def scopedVisits (hidden : List Text) (n : Node) : List (List Text × Expr) :=
  n.expr?.toList.map (hidden, ·) ++
    n.parts.attach.flatMap fun p => p.1.scopedVisits (n.declared ++ hidden)
termination_by n
decreasing_by exact sizeOf_lt_of_mem_parts p.2

lemma mem_scopedVisits {hidden : List Text} {n : Node} {x : List Text × Expr} :
    x ∈ n.scopedVisits hidden ↔ (∃ e, n.expr? = some e ∧ x = (hidden, e)) ∨
      ∃ p ∈ n.parts, x ∈ p.scopedVisits (n.declared ++ hidden) := by
  rw [scopedVisits]
  simp [eq_comm]

/-- An expression is within a node, and the closures around it there declare these variables. -/
inductive HasExpr (e : Expr) : List Text → Node → Prop
  | here : HasExpr e [] (.expr e)
  | within {hidden : List Text} {n p : Node} (part : p ∈ n.parts) (inside : HasExpr e hidden p) :
      HasExpr e (hidden ++ n.declared) n

end Node

lemma Expr.visitsList_eq (es : List Expr) : Expr.visitsList es = (es.map .expr).flatMap Node.visits := by
  induction es with
  | nil => rfl
  | cons e es ih => rw [Expr.visitsList, ih]; rfl

lemma Stmt.visitsList_eq (ss : List Stmt) : Stmt.visitsList ss = (ss.map .stmt).flatMap Node.visits := by
  induction ss with
  | nil => rfl
  | cons s ss ih => rw [Stmt.visitsList, ih]; rfl

namespace Node

/-- A node is visited before its parts, and the parts from left to right. -/
lemma visits_eq (n : Node) : n.visits = n.expr?.toList ++ n.parts.flatMap visits := by
  cases n with
  | expr e =>
    cases e with
    | element array index =>
      cases index <;> simp [visits, Expr.visits, parts, expr?]
    | ternary condition onTrue onFalse =>
      cases onTrue <;> simp [visits, Expr.visits, parts, expr?]
    | _ => simp [visits, Expr.visits, parts, expr?, Expr.visitsList_eq, Stmt.visitsList_eq]
  | stmt s =>
    cases s with
    | result e => cases e <;> simp [visits, Stmt.visits, parts, expr?]
    | _ => simp [visits, Stmt.visits, parts, expr?, Stmt.visitsList_eq]

/-- The same expressions are visited when the variables are kept. -/
theorem map_snd_scopedVisits (hidden : List Text) (n : Node) :
    (n.scopedVisits hidden).map Prod.snd = n.visits := by
  induction hidden, n using scopedVisits.induct with
  | case1 hidden n ih =>
    have hparts : n.parts.attach.flatMap (fun p => p.1.visits) = n.parts.flatMap visits := by
      simp
    rw [scopedVisits, visits_eq, List.map_append, List.map_flatMap, ← hparts]
    simp only [ih, List.map_map]
    cases n.expr? <;> rfl

/-- An expression is visited with the variables that closures around it declare. -/
theorem mem_scopedVisits_iff {outer : List Text} {n : Node} {names : List Text} {e : Expr} :
    (names, e) ∈ n.scopedVisits outer ↔
      ∃ hidden, names = hidden ++ outer ∧ HasExpr e hidden n := by
  induction outer, n using scopedVisits.induct with
  | case1 outer n ih =>
    rw [mem_scopedVisits]
    constructor
    · rintro (⟨e, he, heq⟩ | ⟨p, hp, hmem⟩)
      · obtain ⟨rfl, rfl⟩ := Prod.mk.inj heq
        cases n with
        | expr f =>
          obtain rfl := Option.some.inj he
          exact ⟨[], rfl, .here⟩
        | stmt s => cases he
      · obtain ⟨hidden, rfl, h⟩ := (ih ⟨p, hp⟩).mp hmem
        exact ⟨hidden ++ n.declared, (List.append_assoc _ _ _).symm, .within hp h⟩
    · rintro ⟨hidden, rfl, h⟩
      cases h with
      | here => exact .inl ⟨e, rfl, rfl⟩
      | within hp h =>
        refine .inr ⟨_, hp, (ih ⟨_, hp⟩).mpr ⟨_, List.append_assoc _ _ _, h⟩⟩

/-- A variable is declared by a closure around the expression. -/
lemma HasExpr.exists_closure {e : Expr} {hidden : List Text} {n : Node} (h : HasExpr e hidden n)
    {v : Text} (hv : v ∈ hidden) : ∃ params body outer,
      HasExpr (.closure params body) outer n ∧ v ∈ params.map (·.name) := by
  induction h with
  | here => exact absurd hv List.not_mem_nil
  | within hp _ ih =>
    rcases List.mem_append.mp hv with hv | hv
    · obtain ⟨params, body, outer, h, hparam⟩ := ih hv
      exact ⟨params, body, _, .within hp h, hparam⟩
    · -- The node itself declares it, and only closures declare.
      rw [declared.eq_def] at hv
      split at hv
      · exact ⟨_, _, _, .here, hv⟩
      · exact absurd hv List.not_mem_nil

end Node
end DocTypes
