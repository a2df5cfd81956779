import DocTypes.Proofs.Text.Lines
import DocTypes.Proofs.TypeExpr.Grammar

/-!
What reading a type takes off the front of a text derives the type that it results in. Each step
is traced by the text it consumes.
-/
namespace DocTypes.TypeExpr
open Text

variable {α : Type}

/-- Whatever the step results in stands in the relation to the text consumed and the text left. -/
def Consumes (R : Text → α → Text → Prop) (step : Step α) : Prop :=
  ∀ s a r, step s = .ok (a, r) → ∃ p, s = p ++ r ∧ R p a r

lemma exists_of_bind_eq_ok {ε α β : Type} {x : Except ε α} {f : α → Except ε β} {b : β}
    (h : x >>= f = .ok b) : ∃ a, x = .ok a ∧ f a = .ok b := by
  cases x with
  | error e => exact absurd h (by simp [bind, Except.bind])
  | ok a => exact ⟨a, rfl, h⟩

lemma readLetters_eq_ok {root s n r : Text} (h : readLetters root s = .ok (n, r)) :
    ∃ l, s = l ++ r ∧ n = root ++ l ∧ isSpelled l := by
  cases s with
  | nil => simp [readLetters] at h
  | cons c s =>
    rw [readLetters] at h
    split at h
    · rename_i hc
      cases h
      refine ⟨c :: s.takeWhile continuesName, by simp, rfl, isSpelled_cons.mpr ⟨hc, ?_⟩⟩
      exact fun d hd => List.mem_takeWhile_imp hd
    · simp at h

lemma consumes_readName : Consumes (fun p n _ => n = p ∧ isName n) readName := by
  intro s n r h
  unfold readName at h
  split at h
  · rename_i hafter
    cases h
    exact ⟨"$this", (after?_eq_some_iff.mp hafter).symm, rfl, rfl⟩
  · split at h
    · obtain ⟨l, rfl, hn, hl⟩ := readLetters_eq_ok h
      exact ⟨'\\' :: l, rfl, hn, by simp [hn, isName, hl]⟩
    · obtain ⟨l, rfl, hn, hl⟩ := readLetters_eq_ok h
      exact ⟨l, rfl, hn, by simpa [hn] using isName_of_isSpelled hl⟩

lemma readChar_eq_ok {c : Char} {s r : Text} (h : readChar c s = .ok r) : s = c :: r := by
  unfold readChar at h
  split at h
  · cases h
  · split at h
    · cases h
      simp_all
    · cases h

/-! Brackets. -/

/-- All the `[]` at the front of a text are taken. -/
lemma takeBrackets_eq (t : TypeExpr Text) (r : Text) :
    (∀ u, takeBrackets u (takeBrackets t r).2 = (u, (takeBrackets t r).2)) ∧
      ∀ s, startsWith "?" s = false → Derives .suffixed s t →
        ∃ p, r = p ++ (takeBrackets t r).2 ∧ Derives .suffixed (s ++ p) (takeBrackets t r).1 := by
  fun_induction takeBrackets t r with
  | case1 t r ih =>
    refine ⟨ih.1, fun s hs h => ?_⟩
    have hs' : startsWith "?" (s ++ "[]") = false := by
      cases s with
      | nil => rfl
      | cons c s => exact hs
    obtain ⟨p, hr, hp⟩ := ih.2 (s ++ "[]") hs' (.array hs h)
    refine ⟨'[' :: ']' :: p, by rw [List.cons_append, List.cons_append, ← hr], ?_⟩
    simpa using hp
  | case2 t r hr => exact ⟨fun u => takeBrackets.eq_2 u r hr, fun s _ h => ⟨[], rfl, by simpa using h⟩⟩

/-- An atom, and no `[]` behind it if it is a `?T`. -/
def IsAtom (p : Text) (t : TypeExpr Text) (r : Text) : Prop :=
  Derives .atom p t ∧ (startsWith "?" p → ∀ u, takeBrackets u r = (u, r))

lemma consumes_readPostfix {atom : Step (TypeExpr Text)} (h : Consumes IsAtom atom) :
    Consumes (fun p t r => Derives .suffixed p t ∧ ∀ u, takeBrackets u r = (u, r))
      (readPostfix atom) := by
  intro s t r hs
  obtain ⟨⟨u, r'⟩, hu, hr⟩ := exists_of_bind_eq_ok hs
  obtain ⟨p, rfl, hp, hq⟩ := h _ _ _ hu
  have hr : takeBrackets u r' = (t, r) := Except.ok.inj hr
  obtain ⟨hend, hbrackets⟩ := takeBrackets_eq u r'
  rw [hr] at hend hbrackets
  cases hs : startsWith "?" p with
  | true =>
    rw [hq hs] at hr
    cases hr
    exact ⟨p, rfl, .bare hp, hend⟩
  | false =>
    obtain ⟨q, rfl, hpq⟩ := hbrackets p hs (.bare hp)
    exact ⟨p ++ q, (List.append_assoc _ _ _).symm, hpq, hend⟩

/-! Lists. -/

/-- What is cut off is the mark, and `joins` holds of all that can stand behind it. -/
def Cuts (mark : Char) (joins : Text → Bool) (behind : Text → Option Text) : Prop :=
  ∀ s r, behind s = some r → s = mark :: r ∧ ∀ p q, r = p ++ q → joins p

lemma cuts_behindBar : Cuts '|' (fun _ => true) behindBar := by
  intro s r h
  unfold behindBar at h
  split at h
  · cases h
    exact ⟨rfl, fun _ _ _ => rfl⟩
  · cases h

lemma cuts_behindComma : Cuts ',' (fun _ => true) behindComma := by
  intro s r h
  unfold behindComma at h
  split at h
  · cases h
    exact ⟨rfl, fun _ _ _ => rfl⟩
  · cases h

lemma cuts_behindAmpersand : Cuts '&' isJoinable behindAmpersand := by
  intro s r h
  unfold behindAmpersand at h
  split at h
  · cases h
  · rename_i hne
    cases h
    refine ⟨rfl, fun p q hr => ?_⟩
    cases hj : isJoinable p with
    | true => rfl
    | false =>
      obtain ⟨x, rfl⟩ := exists_of_not_isJoinable hj
      exact absurd hr (hne (x ++ q))
  · cases h

section
variable {P : Text → α → Prop} {mark : Char} {joins : Text → Bool} {behind : Text → Option Text}
  {item : Step α}

/-- Induction on the bound, an item at a time. -/
lemma consumes_readMore (hb : Cuts mark joins behind) (h : Consumes (fun p a _ => P p a) item)
    (bound : Nat) : Consumes (fun p as _ => ∃ ps : List (Text × α), as = ps.map Prod.snd ∧
      p = ps.flatMap (mark :: ·.1) ∧ ∀ p ∈ ps, joins p.1 ∧ P p.1 p.2) (readMore behind item bound) := by
  induction bound with
  | zero =>
    intro s as r hs
    cases hs
    exact ⟨[], rfl, [], rfl, rfl, by simp⟩
  | succ bound ih =>
    intro s as r hs
    rw [readMore] at hs
    split at hs
    · cases hs
      exact ⟨[], rfl, [], rfl, rfl, by simp⟩
    · rename_i hcut
      obtain ⟨⟨a, r'⟩, ha, hs⟩ := exists_of_bind_eq_ok hs
      obtain ⟨⟨as', r''⟩, has, hs⟩ := exists_of_bind_eq_ok hs
      cases hs
      obtain ⟨p, rfl, hp⟩ := h _ _ _ ha
      obtain ⟨q, rfl, ps, rfl, rfl, hps⟩ := ih _ _ _ has
      obtain ⟨rfl, hj⟩ := hb _ _ hcut
      refine ⟨mark :: p ++ ps.flatMap (mark :: ·.1), by simp, (p, a) :: ps, rfl, rfl, ?_⟩
      exact List.forall_mem_cons.mpr ⟨⟨hj p _ rfl, hp⟩, hps⟩

end

/-- A member alone, or two and more between the marks. -/
lemma consumes_readJoined {member whole : Level} {mark : Char} {joins : Text → Bool}
    {behind : Text → Option Text} {make : List (TypeExpr Text) → TypeExpr Text}
    {step : Step (TypeExpr Text)} (hb : Cuts mark joins behind)
    (h : Consumes (fun p t _ => Derives member p t) step)
    (alone : ∀ s t, Derives member s t → Derives whole s t)
    (several : ∀ ps : List (Text × TypeExpr Text), 2 ≤ ps.length → (∀ p ∈ ps.tail, joins p.1) →
      (∀ p ∈ ps, Derives member p.1 p.2) →
      Derives whole (join [mark] (ps.map Prod.fst)) (make (ps.map Prod.snd))) :
    Consumes (fun p t _ => Derives whole p t) (readJoined make behind step) := by
  intro s t r hjoined
  obtain ⟨⟨u, r'⟩, hu, hmore⟩ := exists_of_bind_eq_ok hjoined
  obtain ⟨⟨us, r''⟩, hus, hs⟩ := exists_of_bind_eq_ok hmore
  obtain ⟨p, rfl, hp⟩ := h _ _ _ hu
  obtain ⟨q, rfl, ps, rfl, rfl, hps⟩ := consumes_readMore hb h _ _ _ _ hus
  cases ps with
  | nil =>
    cases hs
    exact ⟨p, rfl, alone p u hp⟩
  | cons p' ps =>
    cases hs
    refine ⟨join [mark] (((p, u) :: p' :: ps).map Prod.fst), ?_, ?_⟩
    · rw [List.map_cons, join_cons, List.flatMap_map, List.append_assoc]
      rfl
    · exact several ((p, u) :: p' :: ps) (by simp) (fun p hp => (hps p hp).1)
        (List.forall_mem_cons.mpr ⟨hp, fun p hp => (hps p hp).2⟩)

/-! Whole types. -/

lemma consumes_readType {atom : Step (TypeExpr Text)} (h : Consumes IsAtom atom) :
    Consumes (fun p t _ => Derives .type p t) (readType atom) := by
  have hsuffixed : Consumes (fun p t _ => Derives .suffixed p t) (readPostfix atom) := by
    intro s t r hs
    obtain ⟨p, hp, hd, -⟩ := consumes_readPostfix h s t r hs
    exact ⟨p, hp, hd⟩
  exact consumes_readJoined cuts_behindBar
    (consumes_readJoined cuts_behindAmpersand hsuffixed (fun _ _ => .part) fun _ => .intersection)
    (fun _ _ => .member) fun _ two _ => .union two

lemma consumes_readSpaced {step : Step (TypeExpr Text)}
    (h : Consumes (fun p t _ => Derives .type p t) step) :
    Consumes (fun p t _ => Derives .spaced p t) (readSpaced step) := by
  intro s t r hs
  obtain ⟨⟨u, r'⟩, hu, hr⟩ := exists_of_bind_eq_ok hs
  cases hr
  obtain ⟨p, hp, hd⟩ := h _ _ _ hu
  refine ⟨s.takeWhile isBlank ++ p ++ r'.takeWhile isBlank, ?_,
    .spaced List.all_takeWhile List.all_takeWhile hd⟩
  rw [trimStart, List.append_assoc, List.takeWhile_append_dropWhile, List.append_assoc, ← hp,
    trimStart, List.takeWhile_append_dropWhile]

lemma startsWith_of_isName {n r : Text} (h : isName n) : startsWith "?" (n ++ r) = false := by
  obtain ⟨c, s, rfl, -, hq, -⟩ := exists_cons_of_isWord (n := n) (by simp [isWord, h])
  simp [startsWith, List.isPrefixOf, Ne.symm hq]

/-- Induction on the depth; the cases are those of the grammar. -/
lemma consumes_readAtom (depth : Nat) : Consumes IsAtom (readAtom depth) := by
  induction depth with
  | zero => exact fun _ _ _ h => absurd h nofun
  | succ depth ih =>
    have harg := consumes_readSpaced (consumes_readType ih)
    intro s t r hs
    rw [readAtom.eq_def] at hs
    dsimp only at hs
    split at hs
    · obtain ⟨⟨u, r'⟩, hu, hs⟩ := exists_of_bind_eq_ok hs
      cases hs
      obtain ⟨p, rfl, hp, hend⟩ := consumes_readPostfix ih _ _ _ hu
      exact ⟨'?' :: p, rfl, .nullable hp, fun _ => hend⟩
    · obtain ⟨⟨u, r'⟩, hu, hs⟩ := exists_of_bind_eq_ok hs
      obtain ⟨r'', hclose, hs⟩ := exists_of_bind_eq_ok hs
      cases hs
      obtain ⟨p, rfl, hp⟩ := harg _ _ _ hu
      obtain rfl := readChar_eq_ok hclose
      exact ⟨'(' :: p ++ ")", by simp, .parenthesized hp,
        fun h => absurd h Bool.false_ne_true⟩
    · obtain ⟨⟨b, r'⟩, hb, hbehind⟩ := exists_of_bind_eq_ok hs
      obtain ⟨_, rfl, rfl, hname⟩ := consumes_readName _ _ _ hb
      dsimp only at hbehind
      split at hbehind
      · obtain ⟨⟨u, r₁⟩, hu, hmore⟩ := exists_of_bind_eq_ok hbehind
        obtain ⟨⟨us, r₂⟩, hus, hend⟩ := exists_of_bind_eq_ok hmore
        obtain ⟨r₃, hclose, heq⟩ := exists_of_bind_eq_ok hend
        cases heq
        obtain ⟨p, rfl, hp⟩ := harg _ _ _ hu
        obtain ⟨q, rfl, ps, rfl, rfl, hps⟩ := consumes_readMore cuts_behindComma harg _ _ _ _ hus
        obtain rfl := readChar_eq_ok hclose
        refine ⟨b ++ '<' :: join "," (((p, u) :: ps).map Prod.fst) ++ ">", ?_, ?_, ?_⟩
        · simp [join_cons, List.flatMap_map]
        · exact .generic hname (by simp)
            (List.forall_mem_cons.mpr ⟨hp, fun p hp => (hps p hp).2⟩)
        · rw [List.append_assoc, startsWith_of_isName hname]
          simp
      · cases hbehind
        refine ⟨b, rfl, .name hname, ?_⟩
        rw [← List.append_nil b, startsWith_of_isName hname]
        simp

lemma consumes_readPrefix {s r : Text} {t : TypeExpr Text} (h : readPrefix s = .ok (t, r)) :
    ∃ p, s = p ++ r ∧ Derives .type p t ∧ (r = [] ∨ ∃ c r', r = c :: r' ∧ isBlank c) := by
  have key := consumes_readType (consumes_readAtom (s.length + 1))
  rw [readPrefix] at h
  split at h
  · cases h
  · rename_i hl
    cases h
    obtain ⟨p, hp, hd⟩ := key _ _ _ hl
    exact ⟨p, hp, hd, .inl rfl⟩
  · rename_i hl
    split at h
    · rename_i hblank
      cases h
      obtain ⟨p, hp, hd⟩ := key _ _ _ hl
      exact ⟨p, hp, hd, .inr ⟨_, _, rfl, hblank⟩⟩
    · cases h

/-- What is read as exactly one type derives it. -/
lemma derives_of_read {s : Text} {t : TypeExpr Text} (h : read s = .ok t) :
    Derives .type (trim s) t := by
  rw [read] at h
  split at h
  · cases h
  · rename_i hp
    cases h
    obtain ⟨p, hs, hd, -⟩ := consumes_readPrefix hp
    rwa [hs, List.append_nil]
  · cases h

lemma isWritten_of_read {s : Text} {t : TypeExpr Text} (h : read s = .ok t) : IsWritten t :=
  (derives_of_read h).isWritten

end DocTypes.TypeExpr
