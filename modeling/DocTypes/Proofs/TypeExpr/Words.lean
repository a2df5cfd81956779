import DocTypes.Proofs.TypeExpr.Derivation

/-!
The words of a text: as many characters as possible, one behind the other, that may stand in the names
of a type. In a text that derives a type the words are the names, and other names in their places derive
the type with these names.
-/
namespace DocTypes.TypeExpr
open Text

/-- What may stand in a name; the `$` only in `$this`. -/
def inWord (c : Char) : Bool := continuesName c || c == '$'

/-- The word in front, which may be empty, and each other character with the word behind it. -/
def fields : Text → Text × List (Char × Text)
  | [] => ([], [])
  | c :: r =>
    if inWord c then (c :: (fields r).1, (fields r).2) else ([], (c, (fields r).1) :: (fields r).2)

/-- The words from left to right. -/
def words (s : Text) : List Text :=
  ((fields s).1 :: (fields s).2.map Prod.snd).filter (!·.isEmpty)

/-- The text with every word replaced. -/
def mapWords (f : Text → Text) (s : Text) : Text :=
  let replace (w : Text) : Text := if w.isEmpty then [] else f w
  replace (fields s).1 ++ (fields s).2.flatMap fun p => p.1 :: replace p.2

variable {f : Text → Text} {c : Char} {s t : Text}

lemma fields_append_cons (hc : inWord c = false) (s t : Text) :
    fields (s ++ c :: t) = ((fields s).1, (fields s).2 ++ (c, (fields t).1) :: (fields t).2) := by
  induction s with
  | nil => simp [fields, hc]
  | cons d s ih =>
    rw [List.cons_append, fields, fields, ih]
    split <;> simp

lemma fields_of_forall (h : ∀ c ∈ s, inWord c) : fields s = (s, []) := by
  induction s with
  | nil => rfl
  | cons c s ih =>
    rw [List.forall_mem_cons] at h
    rw [fields, if_pos h.1, ih h.2]

lemma fields_join (s : Text) : (fields s).1 ++ (fields s).2.flatMap (fun p => p.1 :: p.2) = s := by
  induction s with
  | nil => rfl
  | cons c s ih =>
    rw [fields]
    split
    · rw [List.cons_append, ih]
    · rw [List.nil_append, List.flatMap_cons, List.cons_append, ih]

/-- Words that are left alone leave the text alone. -/
lemma mapWords_eq_self (h : ∀ w ∈ words s, f w = w) : mapWords f s = s := by
  have hsame : ∀ w ∈ (fields s).1 :: (fields s).2.map Prod.snd,
      (if w.isEmpty then [] else f w) = w := by
    intro w hw
    by_cases hnil : w.isEmpty
    · rw [if_pos hnil, List.isEmpty_iff.mp hnil]
    · rw [if_neg hnil, h w (List.mem_filter.mpr ⟨hw, by simpa using hnil⟩)]
  rw [List.forall_mem_cons, List.forall_mem_map] at hsame
  refine Eq.trans ?_ (fields_join s)
  exact congrArg₂ (· ++ ·) hsame.1
    (List.flatMap_congr fun p hp => congrArg (p.1 :: ·) (hsame.2 p hp))

/-! What stands between words. Everything about words follows from these. -/

lemma words_append_cons (hc : inWord c = false) (s t : Text) :
    words (s ++ c :: t) = words s ++ words t := by
  simp only [words, fields_append_cons hc, List.map_append, List.map_cons, ← List.cons_append,
    List.filter_append]

lemma mapWords_append_cons (hc : inWord c = false) (s t : Text) :
    mapWords f (s ++ c :: t) = mapWords f s ++ c :: mapWords f t := by
  simp [mapWords, fields_append_cons hc]

@[simp] lemma words_nil : words [] = [] := rfl

@[simp] lemma mapWords_nil : mapWords f [] = [] := rfl

lemma words_cons (hc : inWord c = false) (t : Text) : words (c :: t) = words t :=
  words_append_cons hc [] t

lemma mapWords_cons (hc : inWord c = false) (t : Text) :
    mapWords f (c :: t) = c :: mapWords f t := mapWords_append_cons hc [] t

lemma words_ne_nil (hc : c ∈ s) (hw : inWord c) : words s ≠ [] := by
  induction s with
  | nil => cases hc
  | cons d s ih =>
    cases hd : inWord d with
    | true =>
      have hfirst : d :: (fields s).1 ∈ words (d :: s) := by simp [words, fields, hd]
      exact List.ne_nil_of_mem hfirst
    | false =>
      rw [words_cons hd]
      refine ih ((List.mem_cons.mp hc).resolve_left ?_)
      rintro rfl
      simp [hd] at hw

lemma words_of_forall (hne : s ≠ []) (h : ∀ c ∈ s, inWord c) : words s = [s] := by
  simp [words, fields_of_forall h, hne]

lemma mapWords_of_forall (hne : s ≠ []) (h : ∀ c ∈ s, inWord c) : mapWords f s = f s := by
  simp [mapWords, fields_of_forall h, hne]

/-- Up to the first character that stands in no word. -/
lemma words_append_of_forall (hne : s ≠ []) (h : ∀ c ∈ s, inWord c)
    (ht : t.head?.all (!inWord ·)) : words (s ++ t) = s :: words t := by
  cases t with
  | nil => rw [List.append_nil, words_of_forall hne h, words_nil]
  | cons c t =>
    have hc : inWord c = false := by simpa using ht
    rw [words_append_cons hc, words_cons hc, words_of_forall hne h, List.singleton_append]

lemma mapWords_append_of_forall (hne : s ≠ []) (h : ∀ c ∈ s, inWord c)
    (ht : t.head?.all (!inWord ·)) : mapWords f (s ++ t) = f s ++ mapWords f t := by
  cases t with
  | nil => rw [List.append_nil, mapWords_of_forall hne h, mapWords_nil, List.append_nil]
  | cons c t =>
    have hc : inWord c = false := by simpa using ht
    rw [mapWords_append_cons hc, mapWords_cons hc, mapWords_of_forall hne h]

/-- Marks only, in front. -/
lemma words_append_of_marks (h : ∀ c ∈ s, inWord c = false) (t : Text) :
    words (s ++ t) = words t := by
  induction s with
  | nil => rfl
  | cons c s ih =>
    rw [List.forall_mem_cons] at h
    rw [List.cons_append, words_cons h.1, ih h.2]

lemma mapWords_append_of_marks (h : ∀ c ∈ s, inWord c = false) (t : Text) :
    mapWords f (s ++ t) = s ++ mapWords f t := by
  induction s with
  | nil => rfl
  | cons c s ih =>
    rw [List.forall_mem_cons] at h
    rw [List.cons_append, mapWords_cons h.1, ih h.2, List.cons_append]

/-- Marks only, behind. -/
lemma words_append_marks (h : ∀ c ∈ t, inWord c = false) (s : Text) : words (s ++ t) = words s := by
  cases t with
  | nil => rw [List.append_nil]
  | cons c t =>
    rw [List.forall_mem_cons] at h
    rw [words_append_cons h.1, ← List.append_nil t, words_append_of_marks h.2, words_nil,
      List.append_nil]

lemma mapWords_append_marks (h : ∀ c ∈ t, inWord c = false) (s : Text) :
    mapWords f (s ++ t) = mapWords f s ++ t := by
  cases t with
  | nil => rw [List.append_nil, List.append_nil]
  | cons c t =>
    rw [List.forall_mem_cons] at h
    rw [mapWords_append_cons h.1, ← List.append_nil t, mapWords_append_of_marks h.2, mapWords_nil,
      List.append_nil]

lemma words_join (hc : inWord c = false) (ps : List Text) :
    words (join [c] ps) = ps.flatMap words := by
  induction ps with
  | nil => rfl
  | cons p ps ih =>
    cases ps with
    | nil => simp [join]
    | cons q ps =>
      rw [join_cons_cons, List.append_assoc, List.singleton_append, words_append_cons hc, ih,
        ← List.flatMap_cons]

lemma mapWords_join (hc : inWord c = false) (ps : List Text) :
    mapWords f (join [c] ps) = join [c] (ps.map (mapWords f)) := by
  induction ps with
  | nil => rfl
  | cons p ps ih =>
    cases ps with
    | nil => simp [join]
    | cons q ps =>
      rw [join_cons_cons, List.append_assoc, List.singleton_append, mapWords_append_cons hc, ih,
        List.map_cons, List.map_cons, List.map_cons, join_cons_cons, List.append_assoc,
        List.singleton_append]

lemma head?_dropWhile_inWord (s : Text) : (s.dropWhile inWord).head?.all (!inWord ·) := by
  have hhead := List.head?_dropWhile_not inWord s
  cases hd : (s.dropWhile inWord).head? with
  | none => rfl
  | some d => simp_all

/-- The first word of a text that begins with one. -/
lemma words_of_takeWhile (h : s.takeWhile inWord ≠ []) :
    words s = s.takeWhile inWord :: words (s.dropWhile inWord) ∧
      mapWords f s = f (s.takeWhile inWord) ++ mapWords f (s.dropWhile inWord) := by
  have hall : ∀ d ∈ s.takeWhile inWord, inWord d := fun d hd => List.mem_takeWhile_imp hd
  have hrest := head?_dropWhile_inWord s
  rw [← words_append_of_forall h hall hrest, ← mapWords_append_of_forall h hall hrest,
    List.takeWhile_append_dropWhile]
  exact ⟨rfl, rfl⟩

/-- A text is empty, or it begins with a mark or with a word. -/
lemma words_cases (s : Text) : s = [] ∨ (∃ c t, inWord c = false ∧ s = c :: t) ∨
    s.takeWhile inWord ≠ [] := by
  cases s with
  | nil => exact .inl rfl
  | cons c s =>
    cases hc : inWord c with
    | false => exact .inr (.inl ⟨c, s, hc, rfl⟩)
    | true => exact .inr (.inr (by simp [hc]))

/-! Texts that derive types. -/

lemma inWord_of_isName {n : Text} (h : isName n) : n ≠ [] ∧ ∀ c ∈ n, inWord c := by
  have hspelled : ∀ s, isSpelled s → ∀ c ∈ s, inWord c := fun s hs c hc => by
    rw [inWord, continuesName_of_isSpelled hs c hc, Bool.true_or]
  rcases isName_cases h with rfl | ⟨s, rfl, hs⟩ | hs
  · exact ⟨by decide, List.all_eq_true.mp (by decide)⟩
  · exact ⟨List.cons_ne_nil _ _, List.forall_mem_cons.mpr ⟨by decide, hspelled s hs⟩⟩
  · refine ⟨?_, hspelled n hs⟩
    rintro rfl
    simp [isSpelled] at hs

lemma inWord_of_isBlank {c : Char} (h : isBlank c) : inWord c = false := by
  have hthis : c ≠ '$' := by
    rintro rfl
    exact absurd h (by decide)
  rw [inWord, continuesName_of_isBlank h, Bool.false_or, beq_false_of_ne hthis]

lemma inWord_of_isAllBlank {b : Text} (h : isAllBlank b) : ∀ c ∈ b, inWord c = false := fun c hc =>
  inWord_of_isBlank (isAllBlank_iff.mp h c hc)

/-- White space around a text belongs to no word. -/
lemma words_trim (s : Text) : words (trim s) = words s := by
  obtain ⟨a, b, ha, hb, hs⟩ := exists_blanks_trim s
  conv_rhs => rw [hs]
  rw [words_append_marks (inWord_of_isAllBlank hb), words_append_of_marks (inWord_of_isAllBlank ha)]

lemma solid_of_inWord {w : Text} (h : ∀ c ∈ w, inWord c) (hne : w ≠ []) : Solid w := by
  refine .of_forall (fun c hc => Bool.eq_false_iff.mpr fun hblank => ?_) hne
  exact absurd (h c hc) (by simp [inWord_of_isBlank hblank])

section
variable {ps : List (Text × TypeExpr Text)}

/-- The words of texts that are joined are the names of what they derive. -/
lemma words_join_fst (hc : inWord c = false) (h : ∀ p ∈ ps, words p.1 = p.2.names) :
    words (join [c] (ps.map Prod.fst)) = namesList (ps.map Prod.snd) := by
  rw [words_join hc, namesList_eq, List.flatMap_map, List.flatMap_map]
  exact List.flatMap_congr h

/-- Other names in the places of those of a text and of what it derives. -/
def renamePart (f : Text → Text) : Text × TypeExpr Text → Text × TypeExpr Text :=
  Prod.map (mapWords f) (map f)

lemma mapWords_join_fst (hc : inWord c = false) (ps : List (Text × TypeExpr Text)) :
    mapWords f (join [c] (ps.map Prod.fst)) = join [c] ((ps.map (renamePart f)).map Prod.fst) := by
  rw [mapWords_join hc, List.map_map, List.map_map]
  rfl

lemma mapList_map_snd (f : Text → Text) (ps : List (Text × TypeExpr Text)) :
    mapList f (ps.map Prod.snd) = (ps.map (renamePart f)).map Prod.snd := by
  rw [mapList_eq, List.map_map, List.map_map]
  rfl

lemma mem_namesList_map_snd {p : Text × TypeExpr Text} {n : Text} (hp : p ∈ ps)
    (hn : n ∈ p.2.names) : n ∈ namesList (ps.map Prod.snd) := by
  rw [namesList_eq, List.mem_flatMap]
  exact ⟨p.2, List.mem_map_of_mem hp, hn⟩

end

/-- The words of what derives a type are its names. -/
theorem Derives.words {l : Level} {s : Text} {t : TypeExpr Text} (h : Derives l s t) :
    words s = t.names := by
  induction h with
  | member _ ih => exact ih
  | union _ _ ih => exact words_join_fst (by decide) ih
  | spaced before behind _ ih =>
    rw [words_append_marks (inWord_of_isAllBlank behind),
      words_append_of_marks (inWord_of_isAllBlank before), ih]
  | part _ ih => exact ih
  | intersection _ _ _ ih => exact words_join_fst (by decide) ih
  | bare _ ih => exact ih
  | array _ _ ih =>
    rw [words_append_marks (forall_eq_false_of_any (by decide)), ih]
    rfl
  | nullable _ ih => exact (words_cons (by decide) _).trans ih
  | parenthesized _ ih =>
    rw [words_append_marks (forall_eq_false_of_any (by decide)),
      words_cons (by decide), ih]
  | name h =>
    obtain ⟨hne, hall⟩ := inWord_of_isName h
    exact words_of_forall hne hall
  | generic base _ _ ih =>
    obtain ⟨hne, hall⟩ := inWord_of_isName base
    rw [words_append_marks (forall_eq_false_of_any (by decide)),
      words_append_cons (by decide), words_of_forall hne hall, List.singleton_append, names]
    exact congrArg _ (words_join_fst (by decide) ih)

/-- Names that may take the places of others: `$this` only that of itself. -/
structure IsRenaming (f : Text → Text) (n : Text) : Prop where
  isName : isName (f n)
  joinable : isJoinable n → isJoinable (f n)

lemma isJoinable_append {s : Text} (hne : s ≠ []) (t : Text) :
    isJoinable (s ++ t) = isJoinable s := by
  cases s with
  | nil => exact absurd rfl hne
  | cons c s => simp [isJoinable, startsWith, List.isPrefixOf]

section
variable {l : Level} {t : TypeExpr Text} (h : Derives l s t) (hf : ∀ n ∈ t.names, IsRenaming f n)
include h hf

/-- A text with other names begins with the mark that it began with, or with another name. -/
lemma Derives.mapWords_cases : s = [] ∨ (∃ c r r', s = c :: r ∧ mapWords f s = c :: r') ∨
    ∃ n r r', IsRenaming f n ∧ n ≠ [] ∧ s = n ++ r ∧ mapWords f s = f n ++ r' := by
  obtain rfl | ⟨c, r, hc, rfl⟩ | hne := words_cases s
  · exact .inl rfl
  · exact .inr (.inl ⟨c, r, _, rfl, mapWords_cons hc r⟩)
  · obtain ⟨hwords, hmap⟩ := words_of_takeWhile (f := f) hne
    have hw := hf _ (by rw [← h.words, hwords]; exact List.mem_cons_self)
    exact .inr (.inr ⟨_, _, _, hw, hne, List.takeWhile_append_dropWhile.symm, hmap⟩)

lemma Derives.isJoinable_mapWords (hj : isJoinable s) : isJoinable (mapWords f s) := by
  obtain rfl | ⟨c, r, r', rfl, hmap⟩ | ⟨n, r, r', hn, hne, rfl, hmap⟩ := h.mapWords_cases hf
  · exact hj
  · rw [hmap]
    simpa [isJoinable, startsWith, List.isPrefixOf] using hj
  · rw [isJoinable_append hne] at hj
    rw [hmap, isJoinable_append (inWord_of_isName hn.isName).1]
    exact hn.joinable hj

lemma Derives.startsWith_mapWords (hs : startsWith "?" s = false) :
    startsWith "?" (mapWords f s) = false := by
  obtain rfl | ⟨c, r, r', rfl, hmap⟩ | ⟨n, r, r', hn, -, rfl, hmap⟩ := h.mapWords_cases hf
  · exact hs
  · rw [hmap]
    simpa [startsWith, List.isPrefixOf] using hs
  · rw [hmap]
    exact startsWith_of_isName hn.isName

end

/-- Other names in the places of those of a type derive the type with the other names. Induction on
the derivation; marks stay where they are. -/
theorem Derives.mapWords {l : Level} {s : Text} {t : TypeExpr Text} (h : Derives l s t)
    (hf : ∀ n ∈ t.names, IsRenaming f n) : Derives l (mapWords f s) (t.map f) := by
  induction h with
  | member _ ih => exact .member (ih hf)
  | @union ps two h ih =>
    have hbar := mapWords_join_fst (f := f) (c := '|') (by decide) ps
    rw [map, mapList_map_snd]
    refine hbar ▸ .union (by simpa using two) ?_
    rw [List.forall_mem_map]
    exact fun p hp => ih p hp fun n hn => hf n (mem_namesList_map_snd hp hn)
  | spaced before behind _ ih =>
    rw [mapWords_append_marks (inWord_of_isAllBlank behind),
      mapWords_append_of_marks (inWord_of_isAllBlank before)]
    exact .spaced before behind (ih hf)
  | part _ ih => exact .part (ih hf)
  | @intersection ps two joinable h ih =>
    have hnames : ∀ p ∈ ps, ∀ n ∈ p.2.names, IsRenaming f n := fun p hp n hn =>
      hf n (mem_namesList_map_snd hp hn)
    have hand := mapWords_join_fst (f := f) (c := '&') (by decide) ps
    rw [map, mapList_map_snd]
    refine hand ▸ .intersection (by simpa using two) ?_ ?_
    · rw [← List.map_tail, List.forall_mem_map]
      intro p hp
      have hp' := List.mem_of_mem_tail hp
      exact (h p hp').isJoinable_mapWords (hnames p hp') (joinable p hp)
    · rw [List.forall_mem_map]
      exact fun p hp => ih p hp (hnames p hp)
  | bare _ ih => exact .bare (ih hf)
  | array tight h ih =>
    rw [mapWords_append_marks (forall_eq_false_of_any (by decide))]
    exact .array (h.startsWith_mapWords hf tight) (ih hf)
  | nullable _ ih =>
    rw [mapWords_cons (by decide)]
    exact .nullable (ih hf)
  | parenthesized _ ih =>
    rw [mapWords_append_marks (forall_eq_false_of_any (by decide)),
      mapWords_cons (by decide)]
    exact .parenthesized (ih hf)
  | @name n h =>
    obtain ⟨hne, hall⟩ := inWord_of_isName h
    rw [mapWords_of_forall hne hall]
    exact .name (hf n (by simp [names])).isName
  | @generic b ps base some h ih =>
    obtain ⟨hne, hall⟩ := inWord_of_isName base
    have hcomma := mapWords_join_fst (f := f) (c := ',') (by decide) ps
    rw [mapWords_append_marks (forall_eq_false_of_any (by decide)),
      mapWords_append_cons (by decide), mapWords_of_forall hne hall, map, mapList_map_snd]
    refine hcomma ▸ .generic (hf b (by simp [names])).isName (by simpa using some) ?_
    rw [List.forall_mem_map]
    exact fun p hp => ih p hp fun n hn => hf n (by simp [names, mem_namesList_map_snd hp hn])

/-! Marks that connect types. Between two of them there is a word. -/

/-- Every piece between the marks has a word. -/
def HasWords (mark : Char) (s : Text) : Prop := ∀ p ∈ splitOn mark s, ∃ c ∈ p, inWord c

section
variable {mark : Char}

lemma HasWords.append (hs : HasWords mark s) (ht : HasWords mark t) : HasWords mark (s ++ t) := by
  obtain ⟨init, last, hsplit, happend⟩ := exists_splitOn_glue mark s
  obtain ⟨first, rest, hfirst⟩ := List.exists_cons_of_ne_nil (splitOn_ne_nil mark t)
  rw [HasWords, hsplit, List.forall_mem_append, List.forall_mem_singleton] at hs
  rw [HasWords, hfirst, List.forall_mem_cons] at ht
  rw [HasWords, happend t first rest hfirst, List.forall_mem_append, List.forall_mem_cons]
  obtain ⟨c, hc, hword⟩ := hs.2
  exact ⟨hs.1, ⟨c, List.mem_append_left _ hc, hword⟩, ht.2⟩

lemma HasWords.append_right (hs : HasWords mark s) (ht : mark ∉ t) : HasWords mark (s ++ t) := by
  obtain ⟨init, last, hsplit, happend⟩ := exists_splitOn_append ht s
  rw [HasWords, hsplit, List.forall_mem_append, List.forall_mem_singleton] at hs
  rw [HasWords, happend, List.forall_mem_append, List.forall_mem_singleton]
  obtain ⟨c, hc, hword⟩ := hs.2
  exact ⟨hs.1, c, List.mem_append_left _ hc, hword⟩

lemma HasWords.append_left (ht : HasWords mark t) (hs : mark ∉ s) : HasWords mark (s ++ t) := by
  obtain ⟨first, rest, hfirst, hsplit⟩ := exists_splitOn_prepend hs t
  rw [HasWords, hfirst, List.forall_mem_cons] at ht
  rw [HasWords, hsplit, List.forall_mem_cons]
  obtain ⟨c, hc, hword⟩ := ht.1
  exact ⟨⟨c, List.mem_append_right _ hc, hword⟩, ht.2⟩

/-- The mark itself may stand between the texts, too. -/
lemma hasWords_join (sep : Char) {ps : List Text} (hne : ps ≠ []) (h : ∀ p ∈ ps, HasWords mark p) :
    HasWords mark (join [sep] ps) := by
  induction ps with
  | nil => exact absurd rfl hne
  | cons p ps ih =>
    rw [List.forall_mem_cons] at h
    cases ps with
    | nil => simpa [join] using h.1
    | cons q ps =>
      have hrest := ih (List.cons_ne_nil _ _) h.2
      rw [join_cons_cons, List.append_assoc, List.singleton_append]
      by_cases hsep : sep = mark
      · subst hsep
        rw [HasWords, splitOn_append_mark, List.forall_mem_append]
        exact ⟨h.1, hrest⟩
      · exact h.1.append (hrest.append_left (s := [sep]) (by simpa using Ne.symm hsep))

lemma hasWords_join_fst (sep : Char) {ps : List (Text × TypeExpr Text)} (hne : ps ≠ [])
    (h : ∀ p ∈ ps, HasWords mark p.1) : HasWords mark (join [sep] (ps.map Prod.fst)) :=
  hasWords_join sep (by simpa using hne) (List.forall_mem_map.mpr h)

lemma hasWords_of_isName (hm : inWord mark = false) {n : Text} (h : isName n) : HasWords mark n := by
  obtain ⟨hne, hall⟩ := inWord_of_isName h
  have hmark : mark ∉ n := fun hc => by simp [hall mark hc] at hm
  obtain ⟨c, r, rfl⟩ := List.exists_cons_of_ne_nil hne
  rw [HasWords, splitOn_of_notMem hmark, List.forall_mem_singleton]
  exact ⟨c, List.mem_cons_self, hall c List.mem_cons_self⟩

/-- What derives a type has a word between any two marks that connect types. -/
theorem Derives.hasWords (hm : mark = '|' ∨ mark = '&') {l : Level} {s : Text} {t : TypeExpr Text}
    (h : Derives l s t) : HasWords mark s := by
  have hmark : ∀ s : Text, '|' ∉ s ∧ '&' ∉ s → mark ∉ s := fun s hs => by
    rcases hm with rfl | rfl
    · exact hs.1
    · exact hs.2
  have hword : inWord mark = false := by
    rcases hm with rfl | rfl <;> decide
  have hblank : isBlank mark = false := by
    rcases hm with rfl | rfl <;> decide
  induction h with
  | member _ ih => exact ih
  | union two _ ih => exact hasWords_join_fst '|' (List.ne_nil_of_length_pos (by omega)) ih
  | spaced before behind _ ih =>
    exact (ih.append_left (notMem_of_isAllBlank hblank before)).append_right
      (notMem_of_isAllBlank hblank behind)
  | part _ ih => exact ih
  | intersection two _ _ ih => exact hasWords_join_fst '&' (List.ne_nil_of_length_pos (by omega)) ih
  | bare _ ih => exact ih
  | array _ _ ih => exact ih.append_right (hmark _ (by decide))
  | nullable _ ih => exact ih.append_left (s := ['?']) (hmark _ (by decide))
  | parenthesized _ ih =>
    exact (ih.append_left (s := ['(']) (hmark _ (by decide))).append_right (hmark _ (by decide))
  | name h => exact hasWords_of_isName hword h
  | generic base some _ ih =>
    have hargs := (hasWords_join_fst ',' some ih).append_left (s := ['<']) (hmark _ (by decide))
    exact ((hasWords_of_isName hword base).append hargs).append_right (hmark _ (by decide))

end

end DocTypes.TypeExpr
