/-!
Text as a list of characters: cutting at a mark, stripping a known beginning or end,
ASCII case, and size in UTF-8 bytes.
-/
namespace DocTypes

/-- Text is handled as its list of characters, so that laws about text are laws about lists. -/
abbrev Text := List Char

namespace Text

instance ofString : Coe String Text := ⟨String.toList⟩

def startsWith (beginning s : Text) : Bool := beginning.isPrefixOf s

def endsWith (ending s : Text) : Bool := ending.isSuffixOf s

def occursIn (part : Text) : Text → Bool
  | [] => part.isEmpty
  | c :: r => startsWith part (c :: r) || occursIn part r

/-- What follows `beginning`, if `s` begins with it. -/
def after? (beginning s : Text) : Option Text := beginning.isPrefixOf? s

/-- What precedes `ending`, if `s` ends with it. -/
def before? (ending s : Text) : Option Text := ending.isSuffixOf? s

/-- Drops the longest end of `s` whose characters all satisfy `p`. -/
def dropEnd (p : Char → Bool) : Text → Text
  | [] => []
  | c :: r =>
    match dropEnd p r with
    | [] => if p c then [] else [c]
    | kept => c :: kept

/-- The pieces of `s` between the marks; a text without the mark is one piece. -/
def splitOn (mark : Char) : Text → List Text
  | [] => [[]]
  | c :: r =>
    if c = mark then [] :: splitOn mark r
    else match splitOn mark r with
      | [] => [[c]]
      | piece :: pieces => (c :: piece) :: pieces

/-- The pieces in order with `sep` between neighbours. -/
def join (sep : Text) (pieces : List Text) : Text := sep.intercalate pieces

/-- What follows the last mark; the whole text when there is none. -/
def afterLast (mark : Char) (s : Text) : Text := (s.reverse.takeWhile (· != mark)).reverse

/-- Small letters for the capital letters A to Z; all else stays. -/
def lower (s : Text) : Text := s.map Char.toLower

/-- Equality up to the case of the letters A to Z. -/
def eqIgnoreCase (s t : Text) : Bool := lower s == lower t

/-- The order of the first characters that differ, by code point; a beginning comes first. -/
def order : Text → Text → Ordering
  | [], [] => .eq
  | [], _ :: _ => .lt
  | _ :: _, [] => .gt
  | c :: r, d :: s => (compare c.toNat d.toNat).then (order r s)

def utf8Size : Text → Nat
  | [] => 0
  | c :: r => c.utf8Size + utf8Size r

/-- Whether the code point of `c` lies in one of the closed ranges. -/
def inRanges (ranges : List (Nat × Nat)) (c : Char) : Bool :=
  ranges.any fun range => range.1 ≤ c.toNat && c.toNat ≤ range.2

theorem splitOn_ne_nil (mark : Char) (s : Text) : splitOn mark s ≠ [] := by
  cases s with
  | nil => simp [splitOn]
  | cons c r => grind [splitOn]

theorem join_cons_cons (sep p q : Text) (ps : List Text) :
    join sep (p :: q :: ps) = p ++ sep ++ join sep (q :: ps) := by
  simp [join, List.intercalate]

/-- Cutting at a mark loses nothing but the marks. -/
theorem join_splitOn (mark : Char) (s : Text) : join [mark] (splitOn mark s) = s := by
  induction s with
  | nil => rfl
  | cons c r ih =>
    cases h : splitOn mark r with
    | nil => exact absurd h (splitOn_ne_nil mark r)
    | cons p ps =>
      rw [h] at ih
      by_cases hc : c = mark
      · rw [splitOn, if_pos hc, h, join_cons_cons, ih, hc]
        rfl
      · rw [splitOn, if_neg hc, h, ← ih]
        cases ps with
        | nil => rfl
        | cons q qs => simp only [join_cons_cons, List.cons_append]

theorem notMem_of_mem_splitOn {mark : Char} {s p : Text} (h : p ∈ splitOn mark s) : mark ∉ p := by
  induction s generalizing p with
  | nil => simp_all [splitOn]
  | cons c r ih => grind [splitOn]

@[simp] theorem order_eq_iff {s t : Text} : order s t = .eq ↔ s = t := by
  induction s generalizing t with
  | nil => cases t <;> simp [order]
  | cons c r ih =>
    cases t with
    | nil => simp [order]
    | cons d t =>
      simp only [order, Ordering.then_eq_eq, Nat.compare_eq_eq, ih, List.cons.injEq,
        Char.toNat_inj]

@[simp] theorem utf8Size_append (s t : Text) : utf8Size (s ++ t) = utf8Size s + utf8Size t := by
  induction s with
  | nil => simp [utf8Size]
  | cons c r ih => simp [utf8Size, ih, Nat.add_assoc]

end Text
end DocTypes
