import DocTypes.Proofs.TypeExpr.Moves

/-!
Positions in bytes are exact. Reading that moves a position over the text never cuts it inside of a
character, never runs out of turns, and answers what reading by the text that is left answers.
-/
namespace DocTypes.TypeExpr
open Text

variable {α : Type} {input rest r : Text}

namespace Cursor

/-! Lists. -/

/-- The move tells what the step results in, wherever fewer than `size` characters are left. -/
def Follows (input : Text) (size : Nat) (move : Move α) (step : Step α) : Prop :=
  ∀ rest, rest <:+ input → rest.length < size → Tells input rest move (step rest)

section
variable {mark : Char} {joins : Text → Bool} {behind : Text → Option Text} {ahead : Move Bool}
  {size : Nat}

/-- The move sees whether there is something to cut off. -/
def Sees (input : Text) (ahead : Move Bool) (behind : Text → Option Text) : Prop :=
  ∀ rest, rest <:+ input → Tells input rest ahead (.ok ((behind rest).isSome, rest))

lemma eq_none_of_cuts (hb : Cuts mark joins behind) (h : rest.head? ≠ some mark) :
    behind rest = none := by
  refine Option.eq_none_iff_forall_ne_some.mpr fun r hr => h ?_
  rw [(hb rest r hr).1]
  rfl

lemma sees_isAt (hb : Cuts mark joins behind) (hcut : ∀ r, (behind (mark :: r)).isSome) :
    Sees input (isAt input mark) behind := by
  intro rest h
  have hsame : (behind rest).isSome = (rest.head? == some mark) := by
    by_cases hmark : rest.head? = some mark
    · obtain ⟨r, rfl⟩ := List.head?_eq_some_iff.mp hmark
      simp [hcut r]
    · rw [eq_none_of_cuts hb hmark, beq_eq_false_iff_ne.mpr hmark]
      rfl
  rw [hsame]
  exact tells_isAt h mark

lemma isSome_behindAmpersand_cons (r : Text) :
    (behindAmpersand ('&' :: r)).isSome = !startsWith "$" r := by
  cases r with
  | nil => rfl
  | cons d r =>
    by_cases hd : d = '$'
    · subst hd
      rfl
    · have hcut : behindAmpersand ('&' :: d :: r) = some (d :: r) :=
        behindAmpersand.eq_2 _ fun s hs => hd (List.cons.inj hs).1
      simp [hcut, startsWith, List.isPrefixOf, Ne.symm hd]

/-- The second look is at what follows the ampersand, which takes one byte. -/
lemma sees_ampersandAhead : Sees input (ampersandAhead input) behindAmpersand := by
  intro rest h
  refine (tells_isAt h '&').andThen ?_
  by_cases hmark : rest.head? = some '&'
  · obtain ⟨r, rfl⟩ := List.head?_eq_some_iff.mp hmark
    have hpos : offset input ('&' :: r) + 1 = offset input r := (offset_eq_offset_cons h).symm
    have hbehind := tells_restAt ((List.suffix_cons _ r).trans h) ('&' :: r)
    rw [← hpos] at hbehind
    rw [isSome_behindAmpersand_cons]
    exact (tells_get _).andThen (hbehind.andThen (.pure _ _))
  · rw [if_neg (by simpa using hmark), eq_none_of_cuts cuts_behindAmpersand hmark]
    exact .pure false rest

lemma tells_moreAt {item : Move α} {step : Step α} (hb : Cuts mark joins behind)
    (ha : Sees input ahead behind) (hi : Follows input size item step) (h : rest <:+ input)
    (hsize : rest.length < size) {bound : Nat} (hbound : rest.length ≤ bound) (as : List α) :
    Tells input rest (moreAt input ahead item as)
      ((readMore behind step bound rest).map fun y => (as ++ y.1, y.2)) := by
  refine tells_repeatFrom (fun bound as s =>
    (readMore behind step bound s).map fun y => (as ++ y.1, y.2)) (fun as s bound hs hsize hb' => ?_)
    h hsize hbound as
  have hahead := ha s hs
  cases hcut : behind s with
  | none =>
    rw [hcut] at hahead
    refine .last (hahead.andThen (.pure none s)) ?_
    rw [readMore_of_none hcut, Except.map, List.append_nil]
  | some r =>
    obtain ⟨rfl, -⟩ := hb s r hcut
    obtain ⟨k, rfl⟩ : ∃ k, bound = k + 1 := ⟨bound - 1, by rw [List.length_cons] at hb'; omega⟩
    rw [hcut] at hahead
    have hr := (List.suffix_cons mark r).trans hs
    have hitem := hi r hr ((Nat.lt_succ_self _).trans hsize)
    have hturn : Tells input (mark :: r) (do bump input; return some (as ++ [← item]))
        (step r >>= fun y => .ok (some (as ++ [y.1]), y.2)) :=
      (tells_bump hs).andThen (hitem.bind fun a r _ _ => .pure _ r)
    cases hstep : step r with
    | error r' =>
      rw [hstep] at hturn
      refine .stuck (hahead.andThen hturn) ?_
      simp [readMore, hcut, hstep, bind, Except.bind, Except.map]
    | ok y =>
      obtain ⟨a, r'⟩ := y
      rw [hstep] at hturn hitem
      refine .next (hahead.andThen hturn) (Nat.lt_succ_of_le hitem.leaves.length_le) ?_
      simp only [readMore, hcut, hstep, bind, Except.bind, Nat.add_sub_cancel]
      cases readMore behind step k r' <;> simp [Except.map, pure, Except.pure]

lemma ne_nil_of_readMore {step : Step α} {s t : Text} {n : Nat} {as : List α} (hcut : behind s = some t)
    (h : readMore behind step (n + 1) s = .ok (as, r)) : as ≠ [] := by
  rw [readMore, hcut] at h
  obtain ⟨y, -, h⟩ := exists_of_bind_eq_ok h
  obtain ⟨z, -, h⟩ := exists_of_bind_eq_ok h
  cases h
  exact List.cons_ne_nil _ _

/-- One member for itself, or all of them. -/
lemma follows_joinedAt {make : List (TypeExpr Text) → TypeExpr Text} {member : Move (TypeExpr Text)}
    {step : Step (TypeExpr Text)} (hb : Cuts mark joins behind) (ha : Sees input ahead behind)
    (hm : Follows input size member step) :
    Follows input size (joinedAt input make ahead member) (readJoined make behind step) := by
  intro rest h hsize
  refine (hm rest h hsize).bind fun t r _ hr => ?_
  have hr' := hr.trans h
  have hmore := tells_moreAt hb ha hm hr' (hr.length_le.trans_lt hsize) le_rfl [t]
  have hahead := ha r hr'
  dsimp only
  cases hcut : behind r with
  | none =>
    rw [hcut] at hahead
    rw [readMore_of_none hcut]
    exact hahead.andThen (.pure t r)
  | some s =>
    obtain ⟨rfl, -⟩ := hb r s hcut
    rw [hcut] at hahead
    have hmake := hmore.bind (g := fun y => .ok (make y.1, y.2)) fun ts s _ _ => .pure (make ts) s
    refine hahead.andThen ?_
    cases hread : readMore behind step (mark :: s).length (mark :: s) with
    | error e =>
      rw [hread] at hmake
      exact hmake
    | ok y =>
      have hne : y.1 ≠ [] := ne_nil_of_readMore hcut hread
      have hmembers : (if y.1.isEmpty then t else make (t :: y.1)) = make ([t] ++ y.1) :=
        if_neg (by simpa using hne)
      rw [hread] at hmake
      change Tells input _ (do return make (← moreAt input ahead member [t]))
        (.ok (if y.1.isEmpty then t else make (t :: y.1), y.2))
      rw [hmembers]
      exact hmake

end

lemma follows_suffixedAt {size : Nat} {atom : Move (TypeExpr Text)} {step : Step (TypeExpr Text)}
    (h : Follows input size atom step) :
    Follows input size (suffixedAt input atom) (readPostfix step) := fun rest hrest hsize =>
  (h rest hrest hsize).bind fun t _ _ hr => tells_bracketsAt t (hr.trans hrest)

lemma follows_typeAt {size : Nat} {atom : Move (TypeExpr Text)} {step : Step (TypeExpr Text)}
    (h : Follows input size atom step) :
    Follows input size (typeAt input atom) (readType step) :=
  follows_joinedAt cuts_behindBar (sees_isAt cuts_behindBar fun _ => rfl)
    (follows_joinedAt cuts_behindAmpersand sees_ampersandAhead (follows_suffixedAt h))

/-- White space is passed over on both sides. -/
lemma follows_spacedAt {size : Nat} {item : Move α} {step : Step α} (h : Follows input size item step) :
    Follows input size (spacedAt input item) (readSpaced step) := by
  intro rest hrest hsize
  have hblanks : trimStart rest <:+ rest := List.dropWhile_suffix _
  have hitem := h _ (hblanks.trans hrest) (hblanks.length_le.trans_lt hsize)
  refine (tells_skipWhile isBlank hrest).andThen (hitem.bind fun a r _ hr => ?_)
  exact (tells_skipWhile isBlank (hr.trans (hblanks.trans hrest))).andThen (.pure a _)

/-- The arguments of a generic type, up to the closing mark. -/
lemma tells_arguments {size : Nat} {arg : Move (TypeExpr Text)} {step : Step (TypeExpr Text)}
    (ha : Follows input size arg step) (h : rest <:+ input) (hsize : rest.length < size) (base : Text) :
    Tells input rest
      (do
        let ts ← moreAt input (isAt input ',') arg [← arg]
        expect input '>'
        return TypeExpr.generic base ts)
      (do
        let (t, r) ← step rest
        let (ts, r) ← readMore behindComma step r.length r
        return (TypeExpr.generic base (t :: ts), ← readChar '>' r)) := by
  refine (ha rest h hsize).bind fun t r _ hr => ?_
  have hmore := tells_moreAt cuts_behindComma (sees_isAt cuts_behindComma fun _ => rfl) ha
    (hr.trans h) (hr.length_le.trans_lt hsize) le_rfl [t]
  have hall := hmore.bind (g := fun y => do return (TypeExpr.generic base y.1, ← readChar '>' y.2))
    fun ts s _ hs => tells_expect (hs.trans (hr.trans h)) '>' (TypeExpr.generic base ts)
  dsimp only
  cases hread : readMore behindComma step r.length r <;> rw [hread] at hall <;> exact hall

lemma tells_namedAt {size : Nat} {arg : Move (TypeExpr Text)} {step : Step (TypeExpr Text)}
    (ha : Follows input size arg step) (h : rest <:+ input) (hsize : rest.length ≤ size) :
    Tells input rest (namedAt input arg) (do
      let (base, r) ← readName rest
      match r with
      | '<' :: r =>
        let (t, r) ← step r
        let (ts, r) ← readMore behindComma step r.length r
        return (.generic base (t :: ts), ← readChar '>' r)
      | r => return (.name base, r)) := by
  refine (tells_nameAt h).bind fun base s _ hs => ?_
  have hs' := hs.trans h
  dsimp only
  split
  · rename_i s _
    have hlen : s.length < size := hs.length_le.trans hsize
    refine (tells_eat hs').andThen ?_
    exact tells_arguments ha ((List.suffix_cons _ s).trans hs') hlen base
  · rename_i hno
    refine (tells_eat_of_ne hs' fun hc => ?_).andThen (.pure _ s)
    obtain ⟨r, hr⟩ := List.head?_eq_some_iff.mp hc
    exact hno r hr

/-- Induction on the depth; the cases are those of the next character. -/
lemma follows_atomAt (depth : Nat) : Follows input depth (atomAt input depth) (readAtom depth) := by
  induction depth with
  | zero => exact fun _ _ h => absurd h (Nat.not_lt_zero _)
  | succ depth ih =>
    have harg := follows_spacedAt (follows_typeAt ih)
    intro rest h hsize
    refine (tells_peek h).andThen ?_
    cases rest with
    | nil => exact tells_fail h
    | cons c r =>
      have hr := (List.suffix_cons c r).trans h
      have hlen : r.length < depth := Nat.lt_of_succ_lt_succ hsize
      by_cases hq : c = '?'
      · subst hq
        refine (tells_bump h).andThen ?_
        have hopt := (follows_suffixedAt ih r hr hlen).bind
          (g := fun y => .ok (TypeExpr.nullable y.1, y.2)) fun t s _ _ => .pure t.nullable s
        rw [readAtom]
        exact hopt
      · by_cases hp : c = '('
        · subst hp
          refine (tells_bump h).andThen ?_
          exact (harg r hr hlen).bind fun t s _ hs => tells_expect (hs.trans hr) ')' t
        · rw [readAtom_of_head hq hp]
          split
          · rename_i hc
            exact absurd (Option.some.inj hc) hq
          · rename_i hc
            exact absurd (Option.some.inj hc) hp
          · exact tells_namedAt harg h (Nat.lt_succ_iff.mp hsize)
          · rename_i hc
            cases hc

end Cursor

/-! Whole types. -/

/-- What `readPrefix` results in, with the position at which the type ends for what follows it. -/
def prefixEnd (s : Text) : Except TypeSyntaxError (TypeExpr Text × Nat) :=
  (readPrefix s).map fun y => (y.1, offset s y.2)

lemma tells_readLongest (s : Text) :
    Tells s s (Cursor.typeAt s (Cursor.atomAt s (s.length + 1))) (readLongest s) :=
  Cursor.follows_typeAt (Cursor.follows_atomAt (s.length + 1)) s (List.suffix_refl s)
    (Nat.lt_succ_self _)

lemma cursor_readPrefix_eq (s : Text) :
    Cursor.readPrefix s = (prefixEnd s).mapError .mismatch := by
  have h := (tells_readLongest s).bind
    (f := fun t => do if (← Cursor.peek s).all isBlank then return t else Cursor.fail s)
    (g := fun y => if y.2.head?.all isBlank then .ok y else .error y.2) fun t r _ hr => by
      refine (Cursor.tells_peek hr).andThen ?_
      dsimp only
      split
      · exact .pure t r
      · exact Cursor.tells_fail hr
  have hrun := h.run_eq
  rw [offset_self] at hrun
  rw [Cursor.readPrefix, hrun, prefixEnd, readPrefix]
  cases readLongest s with
  | error r => rfl
  | ok y =>
    obtain ⟨t, r⟩ := y
    cases r with
    | nil => rfl
    | cons c r =>
      cases hc : isBlank c <;> simp [hc, told, bind, Except.bind, Except.map, Except.mapError]

lemma suffix_of_readPrefix {s : Text} {t : TypeExpr Text} (h : readPrefix s = .ok (t, r)) : r <:+ s := by
  obtain ⟨p, rfl, -⟩ := consumes_readPrefix h
  exact List.suffix_append p r

/-- An error is in front of a last part of the text. -/
lemma exists_before_of_readPrefix {s : Text} {e : TypeSyntaxError} (h : readPrefix s = .error e) :
    ∃ r, r <:+ s ∧ e = .before s r := by
  have hlong := (tells_readLongest s).leaves
  rw [readPrefix] at h
  split at h
  · rename_i r hr
    rw [hr] at hlong
    cases h
    exact ⟨r, hlong, rfl⟩
  · cases h
  · rename_i t c r hr
    rw [hr] at hlong
    split at h
    · cases h
    · cases h
      exact ⟨c :: r, hlong, rfl⟩

/-- The answer is right about its position in the text `s`. A type takes some bytes and ends between two
characters, at the end of the text or in front of white space. An error is at the character that it
names, or at the end. -/
def IsExact (s : Text) : Except TypeSyntaxError (TypeExpr Text × Nat) → Prop
  | .ok (_, n) => 0 < n ∧ n ≤ utf8Size s ∧ (⟨n⟩ : String.Pos.Raw).IsValid (String.ofList s) ∧
      ∃ p r, cutAt? n s = some (p, r) ∧ r.head?.all isBlank
  | .error (.unexpectedChar c n) => ∃ p r, cutAt? n s = some (p, c :: r)
  | .error (.unexpectedEnd n) => n = utf8Size s

lemma isExact_before {s : Text} (h : r <:+ s) : IsExact s (.error (.before s r)) := by
  cases r with
  | nil => rfl
  | cons c r =>
    obtain ⟨p, -, hcut⟩ := exists_cutAt?_offset h
    exact ⟨p, r, hcut⟩

/-- The position behind a type is exact: a text that derives a type is not empty. -/
lemma isExact_ok {p r : Text} {t : TypeExpr Text} (hp : Derives .type p t)
    (hr : r.head?.all isBlank) : IsExact (p ++ r) (.ok (t, offset (p ++ r) r)) := by
  obtain ⟨c, q, rfl⟩ := List.exists_cons_of_ne_nil (hp.solid (by simp)).ne_nil
  have hcut := cutAt?_append (c :: q) r
  rw [offset_append]
  refine ⟨?_, ?_, isValid_iff_exists_cutAt?.mpr ⟨_, _, hcut⟩, _, _, hcut, hr⟩
  · have := c.utf8Size_pos
    rw [utf8Size]
    omega
  · rw [utf8Size_append]
    exact Nat.le_add_right _ _

lemma isExact_prefixEnd (s : Text) : IsExact s (prefixEnd s) := by
  rw [prefixEnd]
  cases h : readPrefix s with
  | error e =>
    obtain ⟨r, hr, rfl⟩ := exists_before_of_readPrefix h
    exact isExact_before hr
  | ok y =>
    obtain ⟨t, r⟩ := y
    obtain ⟨p, rfl, hp, hr⟩ := consumes_readPrefix h
    refine isExact_ok hp ?_
    rcases hr with rfl | ⟨c, r, rfl, hc⟩
    · rfl
    · exact hc

lemma cursor_read_eq (s : Text) : Cursor.read s = (read s).mapError .mismatch := by
  rw [Cursor.read, cursor_readPrefix_eq, prefixEnd, read]
  cases h : readPrefix (trim s) with
  | error e => rfl
  | ok y =>
    obtain ⟨t, r⟩ := y
    have hrest := Cursor.restAt_offset (suffix_of_readPrefix h)
    simp only [Except.map, Except.mapError, bind, Except.bind, hrest]
    cases r <;> rfl

lemma isExact_read (s : Text) :
    IsExact (trim s) ((read s).map fun t => (t, utf8Size (trim s))) := by
  have hexact := isExact_prefixEnd (trim s)
  rw [prefixEnd] at hexact
  rw [read]
  cases h : readPrefix (trim s) with
  | error e =>
    rw [h] at hexact
    exact hexact
  | ok y =>
    obtain ⟨t, r⟩ := y
    cases r with
    | nil =>
      rw [h] at hexact
      exact hexact
    | cons c r => exact isExact_before (suffix_of_readPrefix h)

end DocTypes.TypeExpr
