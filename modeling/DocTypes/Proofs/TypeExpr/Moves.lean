import DocTypes.Proofs.TypeExpr.Cursor
import DocTypes.Proofs.TypeExpr.Derivation

/-!
What a move of the position does is what a step of reading does with the text that is left. `Tells` is
this comparison; here it is made for single moves, for loops and for names.
-/
namespace DocTypes.TypeExpr
open Text

variable {α β : Type} {input rest r : Text} {c : Char}

/-- The answer of a step with the position at which the text that is left begins. -/
def told (input : Text) : Except Text (α × Text) → Except Halt (α × Nat)
  | .ok (a, r) => .ok (a, offset input r)
  | .error r => .error (.mismatch (.before input r))

/-- What is left is a last part of `rest`, whether the step goes on there or fails. -/
def Leaves (rest : Text) : Except Text (α × Text) → Prop
  | .ok (_, r) => r <:+ rest
  | .error r => r <:+ rest

lemma Leaves.trans {r : Text} {x : Except Text (α × Text)} (h : Leaves r x) (hr : r <:+ rest) :
    Leaves rest x := by
  cases x with
  | error e => exact List.IsSuffix.trans h hr
  | ok y => exact List.IsSuffix.trans h hr

/-- Where `rest` begins in the whole text, the move tells by positions what the step results in. -/
structure Tells (input rest : Text) (move : Move α) (x : Except Text (α × Text)) : Prop where
  run_eq : move.run (offset input rest) = told input x
  leaves : Leaves rest x

namespace Tells

lemma pure (a : α) (rest : Text) : Tells input rest (Pure.pure a) (.ok (a, rest)) :=
  ⟨rfl, List.suffix_refl rest⟩

/-- The second move begins where the first one ends, unless that one fails. -/
lemma bind {move : Move α} {x : Except Text (α × Text)} {f : α → Move β}
    {g : α × Text → Except Text (β × Text)} (h : Tells input rest move x)
    (hf : ∀ a r, x = .ok (a, r) → r <:+ rest → Tells input r (f a) (g (a, r))) :
    Tells input rest (move >>= f) (x >>= g) := by
  obtain ⟨hrun, hleaves⟩ := h
  cases x with
  | error r =>
    refine ⟨?_, hleaves⟩
    rw [StateT.run_bind, hrun]
    rfl
  | ok y =>
    obtain ⟨a, r⟩ := y
    have h := hf a r rfl hleaves
    refine ⟨?_, h.leaves.trans hleaves⟩
    rw [StateT.run_bind, hrun]
    exact h.run_eq

/-- Behind a move that does not fail. -/
lemma andThen {move : Move α} {a : α} {f : α → Move β} {x : Except Text (β × Text)}
    (h : Tells input rest move (.ok (a, r))) (hf : Tells input r (f a) x) :
    Tells input rest (move >>= f) x :=
  h.bind (g := fun _ => x) fun b s hb _ => by
    cases hb
    exact hf

end Tells

/-! Single moves. -/

namespace Cursor

lemma restAt_offset (h : rest <:+ input) : restAt input (offset input rest) = .ok rest := by
  obtain ⟨p, -, hcut⟩ := exists_cutAt?_offset h
  rw [restAt, hcut]

lemma tells_get (rest : Text) : Tells input rest get (.ok (offset input rest, rest)) :=
  ⟨rfl, List.suffix_refl rest⟩

/-- A look from the position of another last part. -/
lemma tells_restAt (h : r <:+ input) (rest : Text) :
    Tells input rest (restAt input (offset input r)) (.ok (r, rest)) := by
  rw [restAt_offset h]
  exact ⟨rfl, List.suffix_refl rest⟩

lemma tells_look (h : rest <:+ input) : Tells input rest (look input) (.ok (rest, rest)) :=
  (tells_get rest).andThen (tells_restAt h rest)

lemma tells_peek (h : rest <:+ input) : Tells input rest (peek input) (.ok (rest.head?, rest)) :=
  (tells_look h).andThen (.pure rest.head? rest)

lemma tells_isAt (h : rest <:+ input) (c : Char) :
    Tells input rest (isAt input c) (.ok (rest.head? == some c, rest)) :=
  (tells_peek h).andThen (.pure _ rest)

lemma tells_bump (h : c :: r <:+ input) : Tells input (c :: r) (bump input) (.ok ((), r)) := by
  refine (tells_peek h).andThen ⟨?_, List.suffix_cons c r⟩
  rw [told, offset_eq_offset_cons h]
  rfl

lemma tells_eat (h : c :: r <:+ input) : Tells input (c :: r) (eat input c) (.ok (true, r)) := by
  refine (tells_isAt h c).andThen ?_
  rw [if_pos (by simp)]
  exact (tells_bump h).andThen (.pure true r)

lemma tells_eat_of_ne (h : rest <:+ input) (hc : rest.head? ≠ some c) :
    Tells input rest (eat input c) (.ok (false, rest)) := by
  refine (tells_isAt h c).andThen ?_
  rw [if_neg (by simpa using hc)]
  exact .pure false rest

lemma tells_fail (h : rest <:+ input) : Tells input rest (fail input : Move α) (.error rest) := by
  refine (tells_peek h).andThen ⟨?_, List.suffix_refl rest⟩
  cases rest with
  | nil => rfl
  | cons c r => rfl

/-- A closing mark, behind what `a` stands for. -/
lemma tells_expect (h : rest <:+ input) (c : Char) (a : α) :
    Tells input rest (do expect input c; return a) (do return (a, ← readChar c rest)) := by
  have hmark : Tells input rest (expect input c) ((readChar c rest).map fun r => ((), r)) := by
    refine (tells_isAt h c).andThen ?_
    cases rest with
    | nil => exact tells_fail h
    | cons d r =>
      by_cases hd : d = c
      · subst hd
        rw [readChar_cons, if_pos (by simp)]
        exact tells_bump h
      · rw [readChar, if_neg hd, if_neg (by simpa using hd)]
        exact tells_fail h
  have := hmark.bind (f := fun _ => pure a) (g := fun y => .ok (a, y.2)) fun _ r _ _ => .pure a r
  cases hx : readChar c rest <;> rwa [hx] at this

/-! Loops. -/

/-- A turn does what `go` does first: it is the last one, or goes on behind at least one character
and with one turn less, or fails. -/
inductive TurnTells (input rest : Text) (turn : Move (Option α)) (bound : Nat)
    (go : Nat → α → Text → Except Text (α × Text)) (a : α) : Prop where
  | last (h : Tells input rest turn (.ok (none, rest))) (hgo : go bound a rest = .ok (a, rest))
  | next {b : α} {r : Text} (h : Tells input rest turn (.ok (some b, r)))
      (shorter : r.length < rest.length) (hgo : go bound a rest = go (bound - 1) b r)
  | stuck {r : Text} (h : Tells input rest turn (.error r)) (hgo : go bound a rest = .error r)

/-- A loop does what its turns do. Induction on the turns that are left: each of them costs a
character, so that there are enough. -/
lemma tells_repeatFrom (go : Nat → α → Text → Except Text (α × Text)) {turn : α → Move (Option α)}
    {size : Nat} (hturn : ∀ a rest bound, rest <:+ input → rest.length < size →
      rest.length ≤ bound → TurnTells input rest (turn a) bound go a)
    (h : rest <:+ input) (hsize : rest.length < size) {bound : Nat} (hbound : rest.length ≤ bound)
    (a : α) : Tells input rest (repeatFrom input turn a) (go bound a rest) := by
  have key : ∀ n a rest bound, rest <:+ input → rest.length < size → rest.length ≤ bound →
      rest.length < n → Tells input rest (loop turn n a) (go bound a rest) := by
    intro n
    induction n with
    | zero => exact fun _ _ _ _ _ _ hn => absurd hn (Nat.not_lt_zero _)
    | succ n ih =>
      intro a rest bound h hsize hbound hn
      cases hturn a rest bound h hsize hbound with
      | last ht hgo =>
        rw [hgo]
        exact ht.andThen (.pure a rest)
      | @next b r ht shorter hgo =>
        have hr : r <:+ rest := ht.leaves
        rw [hgo]
        exact ht.andThen (ih b r (bound - 1) (hr.trans h) (by omega) (by omega) (by omega))
      | stuck ht hgo =>
        rw [hgo]
        exact ht.bind (g := fun _ => .ok (a, rest)) nofun
  exact key _ a rest bound h hsize hbound (Nat.lt_succ_of_le h.length_le)

lemma tells_skipWhile (p : Char → Bool) (h : rest <:+ input) :
    Tells input rest (skipWhile input p) (.ok ((), rest.dropWhile p)) := by
  refine tells_repeatFrom (fun _ _ s => .ok ((), s.dropWhile p)) (fun _ s _ hs _ _ => ?_) h
    (Nat.lt_succ_self _) le_rfl ()
  cases s with
  | nil => exact .last ((tells_peek hs).andThen (.pure none [])) rfl
  | cons c s =>
    cases hc : p c with
    | false =>
      refine .last ((tells_peek hs).andThen ?_) ?_
      · rw [if_neg (by simp [hc])]
        exact .pure none _
      · rw [List.dropWhile_cons_of_neg (by simp [hc])]
    | true =>
      refine .next (b := ()) ((tells_peek hs).andThen ?_) (Nat.lt_succ_self _) ?_
      · rw [if_pos (by simp [hc])]
        exact (tells_bump hs).andThen (.pure (some ()) s)
      · rw [List.dropWhile_cons_of_pos hc]

/-- A jump over a whole mark. -/
lemma tells_jump {m : Text} (h : m ++ r <:+ input) :
    Tells input (m ++ r) (modify (· + utf8Size m)) (.ok ((), r)) := by
  refine ⟨?_, List.suffix_append m r⟩
  obtain ⟨p, rfl⟩ := h
  rw [told, offset_append, ← List.append_assoc, offset_append, utf8Size_append]
  rfl

lemma tells_bracketsAt (t : TypeExpr Text) (h : rest <:+ input) :
    Tells input rest (bracketsAt input t) (.ok (takeBrackets t rest)) := by
  refine tells_repeatFrom (fun _ t s => .ok (takeBrackets t s)) (fun t s _ hs _ _ => ?_) h
    (Nat.lt_succ_self _) le_rfl t
  cases hm : startsWith "[]" s with
  | false =>
    refine .last ((tells_look hs).andThen ?_) (congrArg Except.ok (takeBrackets.eq_2 t s ?_))
    · rw [hm, if_neg Bool.false_ne_true]
      exact .pure none s
    · rintro r rfl
      cases hm
  | true =>
    obtain ⟨s, rfl⟩ := startsWith_iff.mp hm
    have shorter : s.length < ("[]" ++ s : Text).length := by
      rw [List.length_append]
      exact Nat.lt_add_of_pos_left (by decide)
    refine .next (b := .array t) ((tells_look hs).andThen ?_) shorter rfl
    rw [if_pos hm]
    exact (tells_jump hs).andThen (.pure _ s)

/-! Names. -/

/-- The text between the position where `m` begins and the one that is reached. -/
lemma tells_between {m : Text} (h : m ++ r <:+ input) :
    Tells input r (do between input (offset input (m ++ r)) (← get)) (.ok (m, r)) := by
  refine (tells_get r).andThen ⟨?_, List.suffix_refl r⟩
  obtain ⟨p, rfl⟩ := h
  have hcut : cutAt? (offset (p ++ (m ++ r)) r) (p ++ (m ++ r)) = some (p ++ m, r) := by
    rw [← List.append_assoc, offset_append, cutAt?_append]
  rw [between, hcut, offset_append]
  simp only [restAt, cutAt?_append]
  rfl

lemma tells_lettersAt (root : Text) (h : root ++ rest <:+ input) :
    Tells input rest (lettersAt input (offset input (root ++ rest))) (readLetters root rest) := by
  have hrest : rest <:+ input := (List.suffix_append root rest).trans h
  refine (tells_peek hrest).andThen ?_
  cases rest with
  | nil => exact tells_fail hrest
  | cons c r =>
    rw [readLetters]
    cases hc : startsName c with
    | false =>
      rw [if_neg (by simp [hc]), if_neg Bool.false_ne_true]
      exact tells_fail hrest
    | true =>
      have hr : r <:+ input := (List.suffix_cons c r).trans hrest
      have hname : root ++ c :: r =
          root ++ c :: r.takeWhile continuesName ++ r.dropWhile continuesName := by simp
      rw [if_pos (by simp [hc]), if_pos rfl]
      rw [hname] at h ⊢
      exact (tells_bump hrest).andThen ((tells_skipWhile _ hr).andThen (tells_between h))

lemma tells_nameAt (h : rest <:+ input) : Tells input rest (nameAt input) (readName rest) := by
  refine (tells_get rest).andThen ((tells_look h).andThen ?_)
  unfold readName
  cases hthis : after? "$this" rest with
  | some r =>
    obtain rfl := after?_eq_some_iff.mp hthis
    rw [if_pos (startsWith_iff.mpr ⟨r, rfl⟩)]
    exact (tells_jump h).andThen (.pure _ r)
  | none =>
    have hno : startsWith "$this" rest = false := by
      refine Bool.eq_false_iff.mpr fun hs => ?_
      obtain ⟨r, hr⟩ := startsWith_iff.mp hs
      cases hthis.symm.trans (after?_eq_some_iff.mpr hr)
    rw [hno, if_neg Bool.false_ne_true]
    dsimp only
    split
    · exact (tells_eat h).andThen (tells_lettersAt ['\\'] h)
    · rename_i hroot
      refine (tells_eat_of_ne h fun hc => ?_).andThen (tells_lettersAt [] h)
      obtain ⟨r, hr⟩ := List.head?_eq_some_iff.mp hc
      exact hroot r hr

end Cursor
end DocTypes.TypeExpr
