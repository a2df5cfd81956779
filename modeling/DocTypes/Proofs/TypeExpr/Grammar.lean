import DocTypes.Proofs.TypeExpr.Reading

/-!
The type syntax as a grammar. The rules say which texts stand for which types, whatever reads
them.
-/
namespace DocTypes.TypeExpr
open Text

/-- The nonterminals of the type syntax. -/
inductive Level where
  /-- Members with `|` between them. -/
  | type
  /-- A type with white space around it, as it stands inside of brackets. -/
  | spaced
  /-- Members with `&` between them. -/
  | intersection
  /-- An atom with any number of `[]` behind it. -/
  | suffixed
  | atom

/-- A text derives a type:

* type := intersection (`|` intersection)*
* intersection := suffixed (`&` suffixed)*, where no `$` stands right behind an `&`
* suffixed := atom (`[]`)*, where the `[]` behind `?T` belong to `T`
* atom := `?` suffixed, or `(` type `)`, or name (`<` type (`,` type)* `>`)?

White space may stand around a type inside of the brackets. -/
inductive Derives : Level → Text → TypeExpr Text → Prop where
  | member {s : Text} {t : TypeExpr Text} (h : Derives .intersection s t) : Derives .type s t
  | union {ps : List (Text × TypeExpr Text)} (two : 2 ≤ ps.length)
      (h : ∀ p ∈ ps, Derives .intersection p.1 p.2) :
      Derives .type (join "|" (ps.map Prod.fst)) (.union (ps.map Prod.snd))
  | spaced {b s b' : Text} {t : TypeExpr Text} (before : isAllBlank b) (behind : isAllBlank b')
      (h : Derives .type s t) : Derives .spaced (b ++ s ++ b') t
  | part {s : Text} {t : TypeExpr Text} (h : Derives .suffixed s t) : Derives .intersection s t
  | intersection {ps : List (Text × TypeExpr Text)} (two : 2 ≤ ps.length)
      (joinable : ∀ p ∈ ps.tail, isJoinable p.1) (h : ∀ p ∈ ps, Derives .suffixed p.1 p.2) :
      Derives .intersection (join "&" (ps.map Prod.fst)) (.intersection (ps.map Prod.snd))
  | bare {s : Text} {t : TypeExpr Text} (h : Derives .atom s t) : Derives .suffixed s t
  | array {s : Text} {t : TypeExpr Text} (tight : startsWith "?" s = false)
      (h : Derives .suffixed s t) : Derives .suffixed (s ++ "[]") (.array t)
  | nullable {s : Text} {t : TypeExpr Text} (h : Derives .suffixed s t) :
      Derives .atom ('?' :: s) (.nullable t)
  | parenthesized {s : Text} {t : TypeExpr Text} (h : Derives .spaced s t) :
      Derives .atom ('(' :: s ++ ")") t
  | name {n : Text} (h : isName n) : Derives .atom n (.name n)
  | generic {b : Text} {ps : List (Text × TypeExpr Text)} (base : isName b) (some : ps ≠ [])
      (h : ∀ p ∈ ps, Derives .spaced p.1 p.2) :
      Derives .atom (b ++ '<' :: join "," (ps.map Prod.fst) ++ ">") (.generic b (ps.map Prod.snd))

namespace Derives

variable {l : Level} {s : Text} {t : TypeExpr Text}

/-- White space stands at the ends of a text only where the grammar says so. -/
lemma solid (h : Derives l s t) : l ≠ .spaced → Solid s := by
  have hjoin : ∀ (sep : Text) (ps : List (Text × TypeExpr Text)), 2 ≤ ps.length →
      (∀ p ∈ ps, Solid p.1) → Solid (join sep (ps.map Prod.fst)) := by
    intro sep ps two hps
    apply solid_join sep
    · simpa using fun s t hp => hps (s, t) hp
    · simpa using List.ne_nil_of_length_pos (show 0 < ps.length by omega)
  induction h with
  | member _ ih => exact fun _ => ih (by simp)
  | union two _ ih => exact fun _ => hjoin _ _ two fun p hp => ih p hp (by simp)
  | spaced => exact fun hl => absurd rfl hl
  | part _ ih => exact fun _ => ih (by simp)
  | intersection two _ _ ih => exact fun _ => hjoin _ _ two fun p hp => ih p hp (by simp)
  | bare _ ih => exact fun _ => ih (by simp)
  | array _ _ ih =>
    intro _
    have hb : Solid ("[]" : Text) := ⟨⟨'[', [']'], rfl, by decide⟩, ['['], ']', rfl, by decide⟩
    exact (ih (by simp)).append hb
  | nullable _ ih => exact fun _ => (ih (by simp)).cons (by decide)
  | @parenthesized s =>
    intro _
    have := (Solid.singleton (c := '(') (by decide)).between s (Solid.singleton (c := ')') (by decide))
    simpa using this
  | name h => exact fun _ => solid_of_isWord (by simp [isWord, h])
  | @generic b ps base =>
    intro _
    have hb : Solid b := solid_of_isWord (by simp [isWord, base])
    have := hb.between ('<' :: join "," (ps.map Prod.fst)) (Solid.singleton (c := '>') (by decide))
    simpa using this

end Derives

/-- A type that can be written: its lists have the members they need, and its names are names. -/
def IsWritten (t : TypeExpr Text) : Prop := t.isProper ∧ ∀ n ∈ t.names, isName n

lemma isWritten_union {ts : List (TypeExpr Text)} (two : 2 ≤ ts.length)
    (h : ∀ t ∈ ts, IsWritten t) : IsWritten (.union ts) := by
  refine ⟨isProper_union.mpr ⟨two, fun t ht => (h t ht).1⟩, fun n hn => ?_⟩
  simp only [names, namesList_eq, List.mem_flatMap] at hn
  obtain ⟨t, ht, hn⟩ := hn
  exact (h t ht).2 n hn

lemma isWritten_intersection {ts : List (TypeExpr Text)} (two : 2 ≤ ts.length)
    (h : ∀ t ∈ ts, IsWritten t) : IsWritten (.intersection ts) := isWritten_union two h

lemma isWritten_generic {b : Text} {ts : List (TypeExpr Text)} (hb : isName b) (hne : ts ≠ [])
    (h : ∀ t ∈ ts, IsWritten t) : IsWritten (.generic b ts) := by
  refine ⟨isProper_generic.mpr ⟨hne, fun t ht => (h t ht).1⟩, fun n hn => ?_⟩
  simp only [names, namesList_eq, List.mem_cons, List.mem_flatMap] at hn
  rcases hn with rfl | ⟨t, ht, hn⟩
  · exact hb
  · exact (h t ht).2 n hn

/-- Whatever is derived can be written. -/
lemma Derives.isWritten {l : Level} {s : Text} {t : TypeExpr Text} (h : Derives l s t) :
    IsWritten t := by
  have hall : ∀ ps : List (Text × TypeExpr Text), (∀ p ∈ ps, IsWritten p.2) →
      ∀ t ∈ ps.map Prod.snd, IsWritten t := fun ps h => by simpa using fun t s hp => h (s, t) hp
  induction h with
  | member _ ih => exact ih
  | union two _ ih => exact isWritten_union (by simpa using two) (hall _ ih)
  | spaced _ _ _ ih => exact ih
  | part _ ih => exact ih
  | intersection two _ _ ih => exact isWritten_intersection (by simpa using two) (hall _ ih)
  | bare _ ih => exact ih
  | array _ _ ih => exact ih
  | nullable _ ih => exact ih
  | parenthesized _ ih => exact ih
  | name h => exact ⟨rfl, by simpa [names] using h⟩
  | generic base some _ ih => exact isWritten_generic base (by simpa using some) (hall _ ih)

end DocTypes.TypeExpr
