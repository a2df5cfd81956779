import DocTypes.Proofs.Syntax.Occurrence
import Mathlib.Data.List.Lex

/-!
Places in a piece of syntax. A place is the way down to it: the number of the part that is entered, step
by step. Places compare like words in a dictionary, which is the order of the source: a node is before
its parts, and a part with all that is within it is before the next part.
-/
namespace DocTypes

namespace Node

/-- The node at a place. -/
def at? : Node → List Nat → Option Node
  | n, [] => some n
  | n, i :: place => n.parts[i]?.bind fun part => part.at? place

@[simp] lemma at?_nil (n : Node) : n.at? [] = some n := rfl

lemma at?_cons (n : Node) (i : Nat) (place : List Nat) :
    n.at? (i :: place) = n.parts[i]?.bind fun part => part.at? place := rfl

/-- The expressions within a node, each with its place. -/
def places (n : Node) : List (List Nat × Expr) :=
  n.expr?.toList.map ([], ·) ++
    n.parts.zipIdx.attach.flatMap fun x => x.1.1.places.map fun y => (x.1.2 :: y.1, y.2)
termination_by n
decreasing_by exact sizeOf_lt_of_mem_parts (List.fst_mem_of_mem_zipIdx x.2)

lemma places_eq (n : Node) : n.places = n.expr?.toList.map ([], ·) ++
    n.parts.zipIdx.flatMap fun x => x.1.places.map fun y => (x.2 :: y.1, y.2) := by
  conv_rhs => rw [← List.attach_map_subtype_val n.parts.zipIdx, List.flatMap_map]
  rw [places]

lemma mem_places {n : Node} {place : List Nat} {e : Expr} : (place, e) ∈ n.places ↔
    place = [] ∧ n.expr? = some e ∨
      ∃ i rest part, place = i :: rest ∧ n.parts[i]? = some part ∧ (rest, e) ∈ part.places := by
  rw [places_eq, List.mem_append, List.mem_flatMap]
  simp only [List.mem_map, Option.mem_toList, Prod.exists, List.mem_zipIdx_iff_getElem?,
    Prod.mk.injEq]
  grind

/-- The places of expressions are listed and no others. -/
theorem mem_places_iff {n : Node} {place : List Nat} {e : Expr} :
    (place, e) ∈ n.places ↔ n.at? place = some (.expr e) := by
  induction place generalizing n with
  | nil =>
    rw [mem_places, at?_nil]
    cases n <;> simp [expr?]
  | cons i rest ih =>
    rw [mem_places, at?_cons, Option.bind_eq_some_iff]
    simp [ih]

/-- They are listed in the order of the source, so none is listed twice. -/
theorem pairwise_places (n : Node) : n.places.Pairwise fun x y => x.1 < y.1 := by
  induction n using places.induct with
  | case1 n ih =>
    rw [places_eq, List.pairwise_append, List.pairwise_flatMap]
    refine ⟨?_, ⟨fun x hx => ?_, ?_⟩, ?_⟩
    · cases n.expr? <;> simp
    · exact List.pairwise_map.mpr ((ih ⟨x, hx⟩).imp .cons)
    · have hindices : (n.parts.zipIdx.map Prod.snd).Pairwise (· < ·) := by
        rw [List.zipIdx_map_snd]
        exact List.pairwise_lt_range'
      refine (List.pairwise_map.mp hindices).imp fun hlt x hx y hy => ?_
      obtain ⟨x, -, rfl⟩ := List.mem_map.mp hx
      obtain ⟨y, -, rfl⟩ := List.mem_map.mp hy
      exact .rel hlt
    · intro x hx y hy
      obtain ⟨e, -, rfl⟩ := List.mem_map.mp hx
      obtain ⟨part, -, hy⟩ := List.mem_flatMap.mp hy
      obtain ⟨y, -, rfl⟩ := List.mem_map.mp hy
      exact .nil

/-- A walk visits the expressions as they are listed. -/
theorem map_snd_places (n : Node) : n.places.map Prod.snd = n.visits := by
  induction n using places.induct with
  | case1 n ih =>
    have hparts : n.parts.flatMap visits = n.parts.zipIdx.flatMap fun x => x.1.visits := by
      conv_lhs => rw [← List.zipIdx_map_fst 0 n.parts, List.flatMap_map]
    rw [places_eq, visits_eq, hparts, List.map_append, List.map_flatMap]
    congr 1
    · cases n.expr? <;> rfl
    · refine List.flatMap_congr fun x hx => ?_
      rw [List.map_map]
      exact ih ⟨x, hx⟩

end Node

/-- The expression at a place of a body, which first tells the statement. -/
def Stmt.exprAt? (body : List Stmt) (place : List Nat) : Option Expr :=
  ((Node.stmt (.block body)).at? place).bind Node.expr?

lemma Stmt.exprAt?_eq_some_iff {body : List Stmt} {place : List Nat} {e : Expr} :
    exprAt? body place = some e ↔ (place, e) ∈ (Node.stmt (.block body)).places := by
  rw [Node.mem_places_iff, exprAt?, Option.bind_eq_some_iff]
  constructor
  · rintro ⟨n, hn, he⟩
    cases n with
    | expr f => rwa [← Option.some.inj he]
    | stmt s => cases he
  · exact fun h => ⟨_, h, rfl⟩

end DocTypes
