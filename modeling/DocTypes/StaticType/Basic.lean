import DocTypes.Name.Basic

/-!
Types of expressions. Unions and intersections are sets: their members are kept in ascending
order and without repetition, so that equal sets are equal types.
-/
namespace DocTypes

inductive Primitive where
  | int
  | float
  | bool
  | string
  | callable
  | object
  | mixed
  | error
  | null
  deriving DecidableEq

inductive StaticType where
  /-- A class by its full name. -/
  | named (name : Text)
  | array (item : StaticType)
  | primitive (p : Primitive)
  | union (members : List StaticType)
  | intersection (members : List StaticType)

namespace Primitive

/-- The place in the order of primitives; null comes last. -/
def rank : Primitive → Nat
  | int => 0
  | float => 1
  | bool => 2
  | string => 3
  | callable => 4
  | object => 5
  | mixed => 6
  | error => 7
  | null => 8

@[simp] theorem rank_inj {p q : Primitive} : p.rank = q.rank ↔ p = q := by
  cases p <;> cases q <;> decide

end Primitive

namespace StaticType

instance : Inhabited StaticType := ⟨.primitive .mixed⟩

/-- Classes come first, then arrays, primitives, unions and intersections. -/
def kindRank : StaticType → Nat
  | named _ => 0
  | array _ => 1
  | primitive _ => 2
  | union _ => 3
  | intersection _ => 4

mutual

/-- The order of types: by kind, then by content; members compare one after the other. -/
def order : StaticType → StaticType → Ordering
  | .named n, .named m => Text.order n m
  | .array t, .array u => order t u
  | .primitive p, .primitive q => compare p.rank q.rank
  | .union ts, .union us => orderMembers ts us
  | .intersection ts, .intersection us => orderMembers ts us
  | t, u => compare t.kindRank u.kindRank

def orderMembers : List StaticType → List StaticType → Ordering
  | [], [] => .eq
  | [], _ :: _ => .lt
  | _ :: _, [] => .gt
  | t :: ts, u :: us => (order t u).then (orderMembers ts us)

end

mutual

theorem order_eq_iff : (t u : StaticType) → (order t u = .eq ↔ t = u)
  | .named n, u => by cases u <;> simp [order, kindRank]
  | .array t, u => by cases u <;> simp [order, kindRank, order_eq_iff t]
  | .primitive p, u => by cases u <;> simp [order, kindRank]
  | .union ts, u => by cases u <;> simp [order, kindRank, orderMembers_eq_iff ts]
  | .intersection ts, u => by cases u <;> simp [order, kindRank, orderMembers_eq_iff ts]

theorem orderMembers_eq_iff : (ts us : List StaticType) → (orderMembers ts us = .eq ↔ ts = us)
  | [], us => by cases us <;> simp [orderMembers]
  | t :: ts, us => by
    cases us <;> simp [orderMembers, Ordering.then_eq_eq, order_eq_iff t, orderMembers_eq_iff ts]

end

instance : DecidableEq StaticType := fun t u => decidable_of_iff _ (order_eq_iff t u)

/-- Puts a type into an ascending list unless it is there. -/
def insertMember (t : StaticType) : List StaticType → List StaticType
  | [] => [t]
  | u :: us =>
    match order t u with
    | .lt => t :: u :: us
    | .eq => u :: us
    | .gt => u :: insertMember t us

/-- The members of a list as an ascending list without repetition. -/
def memberSet (ts : List StaticType) : List StaticType := ts.foldr insertMember []

theorem mem_insertMember {t u : StaticType} {ts : List StaticType} :
    t ∈ insertMember u ts ↔ t = u ∨ t ∈ ts := by
  induction ts with
  | nil => simp [insertMember]
  | cons v vs ih =>
    cases h : order u v with
    | lt => simp [insertMember, h]
    | eq => grind [insertMember, order_eq_iff]
    | gt => grind [insertMember]

@[simp] theorem mem_memberSet {t : StaticType} {ts : List StaticType} :
    t ∈ memberSet ts ↔ t ∈ ts := by
  induction ts with
  | nil => simp [memberSet]
  | cons u us ih => simp_all [memberSet, mem_insertMember]

def unionOf (ts : List StaticType) : StaticType := .union (memberSet ts)

def intersectionOf (ts : List StaticType) : StaticType := .intersection (memberSet ts)

/-- Puts a type in front of the first that is not below it. -/
def insertSorted (t : StaticType) : List StaticType → List StaticType
  | [] => [t]
  | u :: us => if order t u = .gt then u :: insertSorted t us else t :: u :: us

/-- Ascending, with repetitions kept. -/
def sort (ts : List StaticType) : List StaticType := ts.foldr insertSorted []

def ofClass (name : Text) : StaticType := .named (Name.unrooted name)

def int : StaticType := .primitive .int
def float : StaticType := .primitive .float
def bool : StaticType := .primitive .bool
def string : StaticType := .primitive .string
def callable : StaticType := .primitive .callable
def object : StaticType := .primitive .object
def mixed : StaticType := .primitive .mixed
def error : StaticType := .primitive .error
def null : StaticType := .primitive .null
def mixedArray : StaticType := .array mixed

def isNull (t : StaticType) : Bool := t = null

def isError (t : StaticType) : Bool := t = error

end StaticType
end DocTypes
