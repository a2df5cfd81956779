import DocTypes.Name.Basic
import DocTypes.Ordered.Map
import DocTypes.Ordered.Set

/-!
Known classes with their direct parents. Names compare without case and without a backslash in
front.
-/
namespace DocTypes

structure ClassHierarchy where
  direct : OrderedMap Text (List Text)

namespace ClassHierarchy

instance : EmptyCollection ClassHierarchy := ⟨⟨∅⟩⟩

def key (name : Text) : Text := Text.lower (Name.unrooted name)

/-- The direct parents of a class given by its key. -/
def parents (h : ClassHierarchy) (k : Text) : List Text := (h.direct.get? k).getD []

/-- Adds parents to a class, which is known from then on. -/
def addClass (name : Text) (parents : List Text) (h : ClassHierarchy) : ClassHierarchy :=
  ⟨h.direct.insert (key name) (h.parents (key name) ++ parents.map key)⟩

/-- All that is named as a parent somewhere. -/
def allParents (h : ClassHierarchy) : List Text := h.direct.values.flatten

/-- Adds the parents of the `i`-th class found, then of the next, until there is no next. -/
def spread (h : ClassHierarchy) : Nat → Nat → OrderedSet Text → OrderedSet Text
  | 0, _, found => found
  | bound + 1, i, found =>
    match found.toList[i]? with
    | none => found
    | some k => spread h bound (i + 1) (found.insertAll (h.parents k))

/-- All classes above a class, the nearest first. No more can be found than are named as
parents. -/
def ancestors (h : ClassHierarchy) (name : Text) : List Text :=
  (spread h h.allParents.length 0 (.ofList (h.parents (key name)))).toList

/-- Whether a class is `ancestor` or lies below it. -/
def isSubtype (h : ClassHierarchy) (name ancestor : Text) : Bool :=
  key name == key ancestor || (h.ancestors name).contains (key ancestor)

/-- Whether a class is known, be it as a parent only. -/
def isKnown (h : ClassHierarchy) (name : Text) : Bool :=
  h.direct.keys.contains (key name) || h.allParents.contains (key name)

end ClassHierarchy
end DocTypes
