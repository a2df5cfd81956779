import DocTypes.Proofs.TypeExpr.Pieces

/-!
Reading a name in front of text that cannot go on with it. White space never belongs to a name,
so trimming leaves names alone.
-/
namespace DocTypes.TypeExpr
open Text

/-- All white space there is. -/
def blanks : Text :=
  ['\x09', '\x0a', '\x0b', '\x0c', '\x0d', '\x20', '\u0085', '\u00a0', '\u1680', '\u2000', '\u2001',
   '\u2002', '\u2003', '\u2004', '\u2005', '\u2006', '\u2007', '\u2008', '\u2009', '\u200a',
   '\u2028', '\u2029', '\u202f', '\u205f', '\u3000']

lemma mem_blanks_of_isBlank {c : Char} (h : isBlank c) : c ∈ blanks := by
  have key : ∀ n ∈ blanks.map Char.toNat, c.toNat = n → c ∈ blanks := by
    intro n hn hc
    obtain ⟨d, hd, rfl⟩ := List.mem_map.mp hn
    rwa [Char.toNat_inj.mp hc]
  simp only [isBlank, inRanges, blankRanges, List.any_cons, List.any_nil, Bool.or_eq_true,
    Bool.and_eq_true, decide_eq_true_eq, Bool.false_eq_true, or_false] at h
  refine key c.toNat ?_ rfl
  generalize c.toNat = n at h
  have hn : n ∈ [9, 10, 11, 12, 13, 32, 0x85, 0xa0, 0x1680, 0x2000, 0x2001, 0x2002, 0x2003, 0x2004,
      0x2005, 0x2006, 0x2007, 0x2008, 0x2009, 0x200a, 0x2028, 0x2029, 0x202f, 0x205f, 0x3000] := by
    simp only [List.mem_cons, List.not_mem_nil]
    omega
  exact hn

/-- White space cannot stand in a name. -/
lemma continuesName_of_isBlank {c : Char} (h : isBlank c) : continuesName c = false := by
  have hb : ∀ d ∈ blanks, continuesName d = false := forall_eq_false_of_any (by decide +kernel)
  exact hb c (mem_blanks_of_isBlank h)

lemma isBlank_of_continuesName {c : Char} (h : continuesName c) : isBlank c = false := by
  cases hb : isBlank c with
  | false => rfl
  | true => simp [continuesName_of_isBlank hb] at h

lemma continuesName_of_startsName {c : Char} (h : startsName c) : continuesName c := by
  simp only [startsName, Bool.or_eq_true, beq_iff_eq] at h
  rcases h with h | h <;> simp [continuesName, isAlphanumeric, h]

/-- The text is at its end, or goes on with neither a name nor one of the marks. -/
def stops (marks : List Char) (r : Text) : Bool :=
  r.head?.all fun c => !continuesName c && !marks.contains c

@[simp] lemma stops_cons (marks : List Char) (c : Char) (r : Text) :
    stops marks (c :: r) = (!continuesName c && !marks.contains c) := rfl

lemma stops_of_subset {marks marks' : List Char} {r : Text} (h : stops marks r)
    (hs : marks' ⊆ marks) : stops marks' r := by
  cases r with
  | nil => rfl
  | cons c r =>
    simp only [stops_cons, Bool.and_eq_true, Bool.not_eq_true', List.contains_eq_mem,
      decide_eq_false_iff_not] at h ⊢
    exact ⟨h.1, fun hc => h.2 (hs hc)⟩

lemma takeWhile_append_of_stops {s r : Text} (hs : ∀ c ∈ s, continuesName c) (hr : stops [] r) :
    (s ++ r).takeWhile continuesName = s ∧ (s ++ r).dropWhile continuesName = r := by
  rw [List.takeWhile_append_of_pos hs, List.dropWhile_append_of_pos hs]
  cases r with
  | nil => simp
  | cons c r => simp_all

lemma isSpelled_cons {c : Char} {s : Text} :
    isSpelled (c :: s) = true ↔ startsName c = true ∧ ∀ d ∈ s, continuesName d = true := by
  simp [isSpelled]

lemma continuesName_of_isSpelled {s : Text} (h : isSpelled s) :
    ∀ c ∈ s, continuesName c = true := by
  cases s with
  | nil => simp
  | cons c s =>
    obtain ⟨hc, hs⟩ := isSpelled_cons.mp h
    exact List.forall_mem_cons.mpr ⟨continuesName_of_startsName hc, hs⟩

lemma readLetters_append (root : Text) {s r : Text} (hs : isSpelled s) (hr : stops [] r) :
    readLetters root (s ++ r) = .ok (root ++ s, r) := by
  cases s with
  | nil => simp [isSpelled] at hs
  | cons c s =>
    obtain ⟨hc, hs⟩ := isSpelled_cons.mp hs
    obtain ⟨ht, hd⟩ := takeWhile_append_of_stops hs hr
    rw [List.cons_append, readLetters, if_pos hc, ht, hd]

lemma startsName_ne {c : Char} (h : startsName c) :
    c ≠ '$' ∧ c ≠ '\\' ∧ c ≠ '?' ∧ c ≠ '(' := by
  refine ⟨?_, ?_, ?_, ?_⟩ <;>
    (rintro rfl; exact absurd h (by decide))

/-- A name is `$this`, or rooted, or starts with a letter. -/
lemma isName_cases {n : Text} (h : isName n) :
    n = "$this" ∨ (∃ s, n = '\\' :: s ∧ isSpelled s) ∨ isSpelled n := by
  simp only [isName, Bool.or_eq_true, beq_iff_eq] at h
  rcases h with h | h
  · exact .inl h
  · split at h
    · exact .inr (.inl ⟨_, rfl, h⟩)
    · exact .inr (.inr h)

lemma isName_of_isSpelled {n : Text} (h : isSpelled n) : isName n := by
  cases n with
  | nil => simp [isSpelled] at h
  | cons c s =>
    have hb := (startsName_ne (isSpelled_cons.mp h).1).2.1
    rw [isName, Bool.or_eq_true]
    · exact .inr h
    · intro r hr
      exact hb (List.cons.inj hr).1

lemma after?_this_eq_none {c : Char} (hc : c ≠ '$') (r : Text) :
    after? "$this" (c :: r) = none := by
  cases h : after? "$this" (c :: r) with
  | none => rfl
  | some s =>
    have hs := List.isPrefixOf?_eq_some_iff_append_eq.mp h
    exact absurd (List.cons.inj hs).1.symm hc

lemma readName_cons {c : Char} (hc : c ≠ '$') (hb : c ≠ '\\') (r : Text) :
    readName (c :: r) = readLetters [] (c :: r) := by
  rw [readName, after?_this_eq_none hc]
  intro r' h
  exact hb (List.cons.inj h).1

/-- A name is read as it is. -/
lemma readName_append {n r : Text} (hn : isName n) (hr : stops [] r) :
    readName (n ++ r) = .ok (n, r) := by
  rcases isName_cases hn with rfl | ⟨s, rfl, hs⟩ | hs
  · have : after? "$this" ("$this" ++ r) = some r :=
      List.isPrefixOf?_eq_some_iff_append_eq.mpr rfl
    unfold readName
    rw [this]
  · rw [List.cons_append, readName, after?_this_eq_none (by decide)]
    exact readLetters_append ['\\'] hs hr
  · cases n with
    | nil => simp [isSpelled] at hs
    | cons c s =>
      obtain ⟨hc, hb, -⟩ := startsName_ne (isSpelled_cons.mp hs).1
      have := readLetters_append [] hs hr
      rw [List.cons_append] at this ⊢
      rw [readName_cons hc hb, this]
      rfl

/-- Made of what names are made of, with something else than a letter in front. -/
def isLetterless : Text → Bool
  | [] => false
  | c :: r => (c :: r).all continuesName && !startsName c

lemma isLetterless_cons {c : Char} {r : Text} : isLetterless (c :: r) = true ↔
    (∀ d ∈ c :: r, continuesName d = true) ∧ startsName c = false := by
  simp [isLetterless]

/-- Not a name, and yet it may be put where a name belongs: a digit or a hyphen is in front, or behind
the backslash in front there is no letter. -/
def isStray : Text → Bool
  | [] => false
  | c :: r => if c = '\\' then r == "$this" || isLetterless r else isLetterless (c :: r)

/-- Reading stops at the character that should be a letter. -/
lemma isStray_cases {n : Text} (h : isStray n) : ∃ c r, startsName c = false ∧
    (n = c :: r ∧ c ≠ '\\' ∧ (∀ d ∈ n, continuesName d = true) ∨
      n = '\\' :: c :: r ∧ (c :: r = "$this" ∨ ∀ d ∈ c :: r, continuesName d = true)) := by
  cases n with
  | nil => simp [isStray] at h
  | cons b n =>
    rw [isStray] at h
    split at h
    · rename_i hb
      subst hb
      rw [Bool.or_eq_true, beq_iff_eq] at h
      rcases h with rfl | h
      · exact ⟨'$', _, by decide, .inr ⟨rfl, .inl rfl⟩⟩
      · cases n with
        | nil => simp [isLetterless] at h
        | cons c r =>
          obtain ⟨hcont, hc⟩ := isLetterless_cons.mp h
          exact ⟨c, r, hc, .inr ⟨rfl, .inr hcont⟩⟩
    · obtain ⟨hcont, hc⟩ := isLetterless_cons.mp h
      exact ⟨b, n, hc, .inl ⟨rfl, ‹_›, hcont⟩⟩

lemma continuesName_ne {c : Char} (h : continuesName c) : c ≠ '$' ∧ c ≠ '?' ∧ c ≠ '(' := by
  refine ⟨?_, ?_, ?_⟩ <;> (rintro rfl; exact absurd h (by decide))

lemma isName_of_isStray {n : Text} (h : isStray n) : isName n = false := by
  obtain ⟨c, r, hs, ⟨rfl, hb, hcont⟩ | ⟨rfl, -⟩⟩ := isStray_cases h
  · have hd := (continuesName_ne (hcont c (by simp))).1
    rw [Bool.eq_false_iff]
    intro hn
    rcases isName_cases hn with h | ⟨s, h, -⟩ | h
    · simp_all
    · simp_all
    · simp [isSpelled_cons, hs] at h
  · rw [Bool.eq_false_iff]
    intro hn
    rcases isName_cases hn with h | ⟨s, h, hspelled⟩ | h
    · simp at h
    · obtain rfl := (List.cons.inj h).2
      simp [isSpelled_cons, hs] at hspelled
    · exact (startsName_ne (isSpelled_cons.mp h).1).2.1 rfl

lemma readName_of_isStray {n : Text} (h : isStray n) (r : Text) :
    ∃ e, readName (n ++ r) = .error e := by
  obtain ⟨c, s, hs, ⟨rfl, hb, hcont⟩ | ⟨rfl, -⟩⟩ := isStray_cases h
  · rw [List.cons_append, readName_cons (continuesName_ne (hcont c (by simp))).1 hb]
    exact ⟨c :: (s ++ r), by simp [readLetters, hs]⟩
  · rw [List.cons_append, readName, after?_this_eq_none (by decide)]
    exact ⟨c :: (s ++ r), by simp [readLetters, hs]⟩

/-- A name as it may stand where a type is printed: one that can be read, or a stray one. -/
def isWord (n : Text) : Bool := isName n || isStray n

lemma exists_cons_of_isWord {n : Text} (h : isWord n) :
    ∃ c r, n = c :: r ∧ isBlank c = false ∧ c ≠ '?' ∧ c ≠ '(' := by
  rcases Bool.or_eq_true _ _ ▸ h with h | h
  · rcases isName_cases h with rfl | ⟨s, rfl, -⟩ | hs
    · exact ⟨'$', _, rfl, by decide, by decide, by decide⟩
    · exact ⟨'\\', s, rfl, by decide, by decide, by decide⟩
    · cases n with
      | nil => simp [isSpelled] at hs
      | cons c s =>
        have hc := (isSpelled_cons.mp hs).1
        exact ⟨c, s, rfl, isBlank_of_continuesName (continuesName_of_startsName hc),
          (startsName_ne hc).2.2⟩
  · obtain ⟨c, s, -, ⟨rfl, -, hcont⟩ | ⟨rfl, -⟩⟩ := isStray_cases h
    · have hc := hcont c (by simp)
      exact ⟨c, s, rfl, isBlank_of_continuesName hc, (continuesName_ne hc).2⟩
    · exact ⟨'\\', _, rfl, by decide, by decide, by decide⟩

lemma solid_of_continuesName {s : Text} (h : ∀ c ∈ s, continuesName c = true) (hne : s ≠ []) :
    Solid s := .of_forall (fun c hc => isBlank_of_continuesName (h c hc)) hne

lemma solid_of_isSpelled {s : Text} (h : isSpelled s) : Solid s :=
  solid_of_continuesName (continuesName_of_isSpelled h) fun hnil => by simp [hnil, isSpelled] at h

lemma isWord_of_isName {n : Text} (h : isName n) : isWord n := by
  rw [isWord, h, Bool.true_or]

lemma solid_of_isWord {n : Text} (h : isWord n) : Solid n := by
  rcases Bool.or_eq_true _ _ ▸ h with h | h
  · rcases isName_cases h with rfl | ⟨s, rfl, hs⟩ | hs
    · exact ⟨⟨'$', _, rfl, by decide⟩, "$thi", 's', rfl, by decide⟩
    · exact (solid_of_isSpelled hs).cons (by decide)
    · exact solid_of_isSpelled hs
  · obtain ⟨c, s, -, ⟨rfl, -, hcont⟩ | ⟨rfl, hthis | hcont⟩⟩ := isStray_cases h
    · exact solid_of_continuesName hcont (by simp)
    · rw [hthis]
      exact ⟨⟨'\\', _, rfl, by decide⟩, "\\$thi", 's', rfl, by decide⟩
    · exact (solid_of_continuesName hcont (by simp)).cons (by decide)

/-- A name holds nothing but what may stand in names. -/
lemma notMem_of_isName {c : Char} (hc : continuesName c = false) (ht : c ∉ ("$this" : Text))
    {w : Text} (h : isName w) : c ∉ w := by
  have hspelled : ∀ s, isSpelled s → c ∉ s := fun s hs hm => by
    simp [continuesName_of_isSpelled hs c hm] at hc
  rcases isName_cases h with rfl | ⟨s, rfl, hs⟩ | hs
  · exact ht
  · have hb : c ≠ '\\' := by
      rintro rfl
      exact absurd hc (by decide)
    simp [hb, hspelled s hs]
  · exact hspelled w hs

/-- Nor does a stray one. -/
lemma notMem_of_isWord {c : Char} (hc : continuesName c = false) (ht : c ∉ ("$this" : Text))
    {w : Text} (h : isWord w) : c ∉ w := by
  rcases Bool.or_eq_true _ _ ▸ h with h | h
  · exact notMem_of_isName hc ht h
  · have hb : c ≠ '\\' := by
      rintro rfl
      exact absurd hc (by decide)
    obtain ⟨d, s, -, ⟨rfl, -, hcont⟩ | ⟨rfl, hthis | hcont⟩⟩ := isStray_cases h
    · exact fun hm => by simp [hcont c hm] at hc
    · rw [hthis, List.mem_cons, not_or]
      exact ⟨hb, ht⟩
    · rw [List.mem_cons, not_or]
      exact ⟨hb, fun hm => by simp [hcont c hm] at hc⟩

end DocTypes.TypeExpr
