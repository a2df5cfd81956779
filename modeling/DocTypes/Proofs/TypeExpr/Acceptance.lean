import DocTypes.Proofs.TypeExpr.Derivation

/-!
Reading a type accepts exactly what the grammar derives. A text that derives a type is read as that
type in front of everything that cannot go on with it, one case for each rule of the grammar.
-/
namespace DocTypes.TypeExpr
open Text

/-- The text is read as the type, whatever follows that cannot go on with it. The depth is at
least the length of the text. -/
def IsRead : Level → Text → TypeExpr Text → Prop
  | .type, s, t => ∀ d r, s.length < d → stops ['<', '[', '&', '|'] r →
      readType (readAtom d) (s ++ r) = .ok (t, r)
  | .spaced, s, t => ∀ d r, s.length < d → (∃ c ∈ [')', '>', ','], ∃ x, r = c :: x) →
      readSpaced (readType (readAtom d)) (s ++ r) = .ok (t, r)
  | .intersection, s, t => ∀ d r, s.length < d → stops ['<', '[', '&'] r →
      readJoined .intersection behindAmpersand (readPostfix (readAtom d)) (s ++ r) = .ok (t, r)
  | .suffixed, s, t => Reads (if startsWith "?" s then ['<', '['] else ['<']) ⟨s, t, true⟩
  | .atom, s, t => Reads (if startsWith "?" s then ['<', '['] else ['<']) ⟨s, t, true⟩

lemma Reads.of_startsWith {marks : List Char} {s : Text} {t : TypeExpr Text}
    (h : Reads (if startsWith "?" s then ['<', '['] else marks) ⟨s, t, true⟩)
    (hs : startsWith "?" s = false) : Reads marks ⟨s, t, true⟩ := by
  rwa [hs, if_neg (by decide)] at h

/-! Members between marks. -/

section
variable {behind : Text → Option Text} (make : List (TypeExpr Text) → TypeExpr Text)
  {member : Step (TypeExpr Text)} {r : Text} {ps : List (Text × TypeExpr Text)}

lemma readJoined_join (mark : Char) (ends : Text → Prop) (two : 2 ≤ ps.length)
    (hb : ∀ x, behind ('&' :: '$' :: x) = none) (hr : behind r = none) (hends : ends r)
    (hm : ∀ x, ends (mark :: x))
    (hjoin : ∀ p ∈ ps.tail, ∀ x, behind (mark :: p.1 ++ x) = some (p.1 ++ x))
    (hitem : ∀ p ∈ ps, ∀ x, ends x → member (p.1 ++ x) = .ok (p.2, x)) :
    readJoined make behind member (join [mark] (ps.map Prod.fst) ++ r) =
      .ok (make (ps.map Prod.snd), r) := by
  obtain ⟨p, q, ps, rfl⟩ : ∃ p q ps', ps = p :: q :: ps' := by
    match ps with
    | p :: q :: ps => exact ⟨p, q, ps, rfl⟩
  have : Yields (readJoined make behind member (p.1 ++ (q :: ps).flatMap (mark :: ·.1) ++ r)) _ _ :=
    readJoined_flatMap mark Prod.fst (fun _ => true) (fun _ => true) ends Prod.snd hb hr hends hm
      (fun p hp _ => hjoin p hp) (fun _ _ h => absurd h (by simp)) hitem
  simpa [Yields, join_cons, List.flatMap_map] using this

end

lemma length_lt_of_join {sep : Text} {ps : List (Text × TypeExpr Text)} {d : Nat}
    (hd : (join sep (ps.map Prod.fst)).length < d) : ∀ p ∈ ps, p.1.length < d := fun _ hp =>
  (length_le_length_join sep (List.mem_map_of_mem hp)).trans_lt hd

lemma isRead_union {ps : List (Text × TypeExpr Text)} (two : 2 ≤ ps.length)
    (h : ∀ p ∈ ps, IsRead .intersection p.1 p.2) :
    IsRead .type (join "|" (ps.map Prod.fst)) (.union (ps.map Prod.snd)) := by
  intro d r hd hr
  refine readJoined_join .union '|' (stops ['<', '[', '&'] ·) two (fun _ => rfl)
    (behindBar_of_stops (stops_of_subset hr (by simp))) (stops_of_subset hr (by simp))
    (fun x => stops_mark (by simp) (by simp)) (fun _ _ _ => rfl) fun p hp x hx => ?_
  exact h p hp d x (length_lt_of_join hd p hp) hx

lemma Reads.readPostfix_eq {marks : List Char} (hm : '[' ∈ marks) {s : Text} {t : TypeExpr Text}
    (h : Reads marks ⟨s, t, true⟩) {d : Nat} (hd : s.length < d) {r : Text} (hr : stops marks r) :
    readPostfix (readAtom d) (s ++ r) = .ok (t, r) := by
  have := h.yields d r hd hr
  rwa [takeBrackets_of_stops (stops_of_subset hr (by simpa using hm))] at this

lemma isRead_intersection {ps : List (Text × TypeExpr Text)} (two : 2 ≤ ps.length)
    (joinable : ∀ p ∈ ps.tail, isJoinable p.1) (h : ∀ p ∈ ps, Reads ['<', '['] ⟨p.1, p.2, true⟩) :
    IsRead .intersection (join "&" (ps.map Prod.fst)) (.intersection (ps.map Prod.snd)) := by
  intro d r hd hr
  refine readJoined_join .intersection '&' (stops ['<', '['] ·) two (fun _ => rfl)
    (behindAmpersand_of_stops (stops_of_subset hr (by simp))) (stops_of_subset hr (by simp))
    (fun x => stops_mark (by simp) (by simp)) (fun p hp x => ?_) fun p hp x hx => ?_
  · exact behindAmpersand_append (joinable p hp) (h p (List.mem_of_mem_tail hp)).ne_nil x
  · exact (h p hp).readPostfix_eq (by simp) (length_lt_of_join hd p hp) hx

/-! A member alone. -/

lemma readJoined_alone {behind : Text → Option Text} {make : List (TypeExpr Text) → TypeExpr Text}
    {member : Step (TypeExpr Text)} {s r : Text} {t : TypeExpr Text} (hr : behind r = none)
    (h : member s = .ok (t, r)) : readJoined make behind member s = .ok (t, r) := by
  rw [readJoined, h]
  simp [bind, Except.bind, pure, Except.pure, readMore_of_none hr]

lemma isRead_part {s : Text} {t : TypeExpr Text} (h : Reads ['<', '['] ⟨s, t, true⟩) :
    IsRead .intersection s t := fun _ _ hd hr =>
  readJoined_alone (behindAmpersand_of_stops (stops_of_subset hr (by simp)))
    (h.readPostfix_eq (by simp) hd (stops_of_subset hr (by simp)))

lemma isRead_member {s : Text} {t : TypeExpr Text} (h : IsRead .intersection s t) :
    IsRead .type s t := fun d r hd hr =>
  readJoined_alone (behindBar_of_stops (stops_of_subset hr (by simp)))
    (h d r hd (stops_of_subset hr (by simp)))

/-! Brackets. -/

/-- White space cannot go on with a type. -/
lemma stops_of_isBlank {c : Char} (hc : isBlank c) (r : Text) :
    stops ['<', '[', '&', '|'] (c :: r) := by
  have hmarks : ∀ c ∈ ['<', '[', '&', '|'], isBlank c = false := forall_eq_false_of_any (by decide)
  have hc' : c ∉ ['<', '[', '&', '|'] := fun h => by simp [hmarks c h] at hc
  rw [stops_cons, continuesName_of_isBlank hc]
  simpa using hc'

lemma isRead_spaced {b s b' : Text} {t : TypeExpr Text} (before : isAllBlank b)
    (behind : isAllBlank b') (hs : Solid s) (h : IsRead .type s t) :
    IsRead .spaced (b ++ s ++ b') t := by
  rintro d r hd ⟨c, hc, x, rfl⟩
  have hclose : ∀ c ∈ [')', '>', ','], isBlank c = false := forall_eq_false_of_any (by decide)
  have hstop : stops ['<', '[', '&', '|'] (b' ++ c :: x) := by
    cases b' with
    | nil =>
      simp only [List.mem_cons, List.not_mem_nil, or_false] at hc
      rcases hc with rfl | rfl | rfl <;> exact stops_mark (by simp) (by simp)
    | cons e b' => exact stops_of_isBlank (isAllBlank_iff.mp behind e (by simp)) _
  simp only [List.length_append] at hd
  have hread := h d (b' ++ c :: x) (by omega) hstop
  rw [List.append_assoc, List.append_assoc, readSpaced, trimStart_append_of_blank before,
    hs.trimStart_append, hread]
  change Except.ok (t, trimStart (b' ++ c :: x)) = _
  rw [trimStart_append_of_blank behind, trimStart_cons (hclose c hc)]

lemma reads_in_parentheses {s : Text} {t : TypeExpr Text} (h : IsRead .spaced s t) :
    Reads ['<'] ⟨'(' :: s ++ ")", t, true⟩ := by
  refine reads_of_readAtom (by simp) fun d r hd hr => ?_
  obtain ⟨d, rfl⟩ : ∃ d', d = d' + 1 := ⟨d - 1, by omega⟩
  simp only [List.length_cons, List.length_append] at hd
  have hin := h d (')' :: r) (by omega) ⟨')', by simp, r, rfl⟩
  have htext : '(' :: s ++ ")" ++ r = '(' :: (s ++ ')' :: r) := by simp
  dsimp only
  rw [htext, readAtom, hin]
  simp [Yields, bind, Except.bind, pure, Except.pure, readChar_cons]

lemma reads_generic {b : Text} {ps : List (Text × TypeExpr Text)} (base : isName b) (some : ps ≠ [])
    (h : ∀ p ∈ ps, IsRead .spaced p.1 p.2) :
    Reads ['<'] ⟨b ++ '<' :: join "," (ps.map Prod.fst) ++ ">", .generic b (ps.map Prod.snd), true⟩ := by
  obtain ⟨p, ps, rfl⟩ := List.exists_cons_of_ne_nil some
  obtain ⟨c, s, hcs, -, hq, hp⟩ := exists_cons_of_isWord (n := b) (isWord_of_isName base)
  refine reads_of_readAtom (by simp) fun d r hd hr => ?_
  obtain ⟨d, rfl⟩ : ∃ d', d = d' + 1 := ⟨d - 1, by omega⟩
  have hshort : ∀ q ∈ p :: ps, q.1.length < d := by
    have : (join "," ((p :: ps).map Prod.fst)).length < d := by
      simp only [List.length_append, List.length_cons] at hd
      omega
    exact length_lt_of_join this
  -- The first argument, and then all others behind their commas.
  have hends : ∃ c ∈ [')', '>', ','], ∃ x, ps.flatMap (',' :: ·.1) ++ '>' :: r = c :: x := by
    cases ps with
    | nil => exact ⟨'>', by simp, r, rfl⟩
    | cons q ps => exact ⟨',', by simp, _, rfl⟩
  have hfirst := h p (by simp) d _ (hshort p (by simp)) hends
  have hlen : ps.length ≤ (ps.flatMap (',' :: ·.1) ++ '>' :: r).length := by
    have : ps.length ≤ (ps.flatMap (',' :: ·.1)).length := length_le_length_flatMap (by simp)
    rw [List.length_append]
    omega
  have hmore : Yields (readMore behindComma (readSpaced (readType (readAtom d)))
      (ps.flatMap (',' :: ·.1) ++ '>' :: r).length (ps.flatMap (',' :: ·.1) ++ '>' :: r)) _ _ :=
    readMore_flatMap ',' Prod.fst (fun _ => true) (fun _ => true)
      (fun x => ∃ c ∈ [')', '>', ','], ∃ s, x = c :: s) Prod.snd (fun _ => rfl) rfl
      ⟨'>', by simp, r, rfl⟩ (fun x => ⟨',', by simp, x, rfl⟩) (fun _ _ _ _ => rfl)
      (fun _ _ h => absurd h (by simp))
      (fun q hq x => h q (List.mem_cons_of_mem p hq) d x (hshort q (List.mem_cons_of_mem p hq))) hlen
  simp only [Yields, Bool.and_self, List.all_eq_true, implies_true, if_true] at hmore
  have htext : b ++ '<' :: join "," ((p :: ps).map Prod.fst) ++ ">" ++ r =
      b ++ '<' :: (p.1 ++ (ps.flatMap (',' :: ·.1) ++ '>' :: r)) := by
    simp [join_cons, List.flatMap_map]
  dsimp only
  rw [htext, hcs, List.cons_append, readAtom_of_head hq hp, ← List.cons_append, ← hcs,
    readName_append base (stops_mark (by simp) (by simp))]
  simp only [Yields, bind, Except.bind, pure, Except.pure, hfirst, hmore, readChar_cons, if_true,
    List.map_cons]

lemma reads_array {s : Text} {t : TypeExpr Text} (h : Reads ['<'] ⟨s, t, true⟩) :
    Reads ['<'] ⟨s ++ "[]", .array t, true⟩ := by
  have := reads_bracketed h
  simpa [Piece.bracketed, wholeText_singleton, wholeType_singleton, wholeReadable_singleton] using this

/-- Induction on the derivation. -/
theorem Derives.isRead {l : Level} {s : Text} {t : TypeExpr Text} (h : Derives l s t) :
    IsRead l s t := by
  have hmono : ∀ {s : Text} {t : TypeExpr Text},
      Reads (if startsWith "?" s then ['<', '['] else ['<']) ⟨s, t, true⟩ →
        Reads ['<', '['] ⟨s, t, true⟩ := fun h => h.mono (by split <;> simp)
  induction h with
  | member _ ih => exact isRead_member ih
  | union two _ ih => exact isRead_union two ih
  | spaced before behind h ih => exact isRead_spaced before behind (h.solid (by simp)) ih
  | part _ ih => exact isRead_part (hmono ih)
  | intersection two joinable _ ih =>
    exact isRead_intersection two joinable fun p hp => hmono (ih p hp)
  | bare _ ih => exact ih
  | array tight _ ih => exact (reads_array (ih.of_startsWith tight)).mono (by split <;> simp)
  | nullable _ ih => exact reads_optional (hmono ih)
  | parenthesized _ ih => exact reads_in_parentheses ih
  | @name n h =>
    have := reads_name (n := n) (isWord_of_isName h)
    rw [h] at this
    exact this.mono (by split <;> simp)
  | generic base some _ ih => exact (reads_generic base some ih).mono (by split <;> simp)

/-- What derives a type is read as that type, at the end of the text or in front of white space. -/
lemma readPrefix_append {p r : Text} {t : TypeExpr Text} (h : Derives .type p t)
    (hr : r = [] ∨ ∃ c r', r = c :: r' ∧ isBlank c) : readPrefix (p ++ r) = .ok (t, r) := by
  have hstop : stops ['<', '[', '&', '|'] r := by
    rcases hr with rfl | ⟨c, r, rfl, hc⟩
    · rfl
    · exact stops_of_isBlank hc r
  have hlong : readLongest (p ++ r) = .ok (t, r) :=
    h.isRead ((p ++ r).length + 1) r (by rw [List.length_append]; omega) hstop
  rw [readPrefix, hlong]
  rcases hr with rfl | ⟨c, r, rfl, hc⟩
  · rfl
  · simp [hc]

/-- A type at the start of a text is found where one stands, up to white space or to the end, and
its length is told in bytes. A text is exactly one type if it derives it without the white space
around it. -/
theorem readPrefix_and_read_iff (s : Text) (t : TypeExpr Text) :
    (∀ n : Nat, (∃ r, readPrefix s = .ok (t, r) ∧ n + utf8Size r = utf8Size s) ↔
      ∃ p r, s = p ++ r ∧ utf8Size p = n ∧ Derives .type p t ∧
        (r = [] ∨ ∃ c r', r = c :: r' ∧ isBlank c)) ∧
    (read s = .ok t ↔ Derives .type (trim s) t) := by
  refine ⟨fun n => ⟨?_, ?_⟩, derives_of_read, fun h => ?_⟩
  · rintro ⟨r, hread, hn⟩
    obtain ⟨p, rfl, hp, hr⟩ := consumes_readPrefix hread
    rw [utf8Size_append] at hn
    exact ⟨p, r, rfl, by omega, hp, hr⟩
  · rintro ⟨p, r, rfl, rfl, hp, hr⟩
    exact ⟨r, readPrefix_append hp hr, (utf8Size_append p r).symm⟩
  · have := readPrefix_append h (.inl rfl)
    rw [List.append_nil] at this
    rw [read, this]

end DocTypes.TypeExpr
