import DocTypes.Doc.Reader
import DocTypes.Proofs.Text.Trim

/-!
Lines put together with a line end and taken apart again. A line has no line feed in it and no
carriage return at its end, where that would pass for a part of the line end.
-/
namespace DocTypes
namespace Text

lemma after?_eq_some_iff {b s r : Text} : after? b s = some r ↔ b ++ r = s :=
  List.isPrefixOf?_eq_some_iff_append_eq

lemma before?_eq_some_iff {e s r : Text} : before? e s = some r ↔ r ++ e = s :=
  List.isSuffixOf?_eq_some_iff_append_eq

lemma startsWith_iff {b s : Text} : startsWith b s = true ↔ ∃ r, b ++ r = s :=
  List.isPrefixOf_iff_prefix

lemma endsWith_iff {e s : Text} : endsWith e s = true ↔ ∃ r, r ++ e = s :=
  List.isSuffixOf_iff_suffix

lemma splitOn_of_notMem {mark : Char} {s : Text} (h : mark ∉ s) : splitOn mark s = [s] := by
  induction s with
  | nil => rfl
  | cons c s ih =>
    rw [List.mem_cons, not_or] at h
    rw [splitOn, if_neg (Ne.symm h.1), ih h.2]

lemma splitOn_append_cons {mark : Char} {s : Text} (h : mark ∉ s) (t : Text) :
    splitOn mark (s ++ mark :: t) = s :: splitOn mark t := by
  induction s with
  | nil => simp [splitOn]
  | cons c s ih =>
    rw [List.mem_cons, not_or] at h
    rw [List.cons_append, splitOn, if_neg (Ne.symm h.1), ih h.2]

/-- What is put in front of a text is put in front of its first piece. -/
lemma exists_splitOn_prepend {mark : Char} {b : Text} (hb : mark ∉ b) (s : Text) :
    ∃ first rest, splitOn mark s = first :: rest ∧ splitOn mark (b ++ s) = (b ++ first) :: rest := by
  by_cases hm : mark ∈ s
  · obtain ⟨l, t, rfl, hl⟩ := List.eq_append_cons_of_mem hm
    refine ⟨l, splitOn mark t, splitOn_append_cons hl t, ?_⟩
    rw [← List.append_assoc, splitOn_append_cons (by simp [hb, hl])]
  · exact ⟨s, [], splitOn_of_notMem hm, splitOn_of_notMem (by simp [hb, hm])⟩

/-- Where two texts meet, the last piece of the one and the first piece of the other are one piece. -/
lemma exists_splitOn_glue (mark : Char) (s : Text) : ∃ init last,
    splitOn mark s = init ++ [last] ∧ ∀ t first rest, splitOn mark t = first :: rest →
      splitOn mark (s ++ t) = init ++ (last ++ first) :: rest := by
  induction s with
  | nil => exact ⟨[], [], rfl, fun t first rest h => h⟩
  | cons c s ih =>
    obtain ⟨init, last, hs, happend⟩ := ih
    by_cases hc : c = mark
    · refine ⟨[] :: init, last, by rw [splitOn, if_pos hc, hs]; rfl, fun t first rest h => ?_⟩
      rw [List.cons_append, splitOn, if_pos hc, happend t first rest h]
      rfl
    · cases init with
      | nil =>
        refine ⟨[], c :: last, by rw [splitOn, if_neg hc, hs]; rfl, fun t first rest h => ?_⟩
        rw [List.cons_append, splitOn, if_neg hc, happend t first rest h]
        rfl
      | cons p ps =>
        refine ⟨(c :: p) :: ps, last, by rw [splitOn, if_neg hc, hs]; rfl, fun t first rest h => ?_⟩
        rw [List.cons_append, splitOn, if_neg hc, happend t first rest h]
        rfl

/-- What is put behind a text is put behind its last piece. -/
lemma exists_splitOn_append {mark : Char} {e : Text} (he : mark ∉ e) (s : Text) :
    ∃ init last, splitOn mark s = init ++ [last] ∧ splitOn mark (s ++ e) = init ++ [last ++ e] := by
  obtain ⟨init, last, hs, happend⟩ := exists_splitOn_glue mark s
  exact ⟨init, last, hs, happend e e [] (splitOn_of_notMem he)⟩

/-- A text and another behind a mark are cut one by one. -/
lemma splitOn_append_mark (mark : Char) (s t : Text) :
    splitOn mark (s ++ mark :: t) = splitOn mark s ++ splitOn mark t := by
  obtain ⟨init, last, hs, happend⟩ := exists_splitOn_glue mark s
  rw [happend (mark :: t) [] (splitOn mark t) (by rw [splitOn, if_pos rfl]), hs, List.append_nil,
    List.append_assoc, List.singleton_append]

structure IsLine (l : Text) : Prop where
  noFeed : '\n' ∉ l
  noReturn : ∀ r, l ≠ r ++ ['\r']

lemma IsLine.of_suffix {l t : Text} (h : IsLine l) (ht : t <:+ l) : IsLine t := by
  obtain ⟨s, rfl⟩ := ht
  refine ⟨fun hl => h.noFeed (List.mem_append_right s hl), ?_⟩
  rintro r rfl
  exact h.noReturn (s ++ r) (List.append_assoc ..).symm

/-- A line that does not end in white space. -/
lemma isLine_of_trimEnd_eq {l : Text} (hn : '\n' ∉ l) (h : trimEnd l = l) : IsLine l := by
  refine ⟨hn, ?_⟩
  rintro r rfl
  have hb : trimEnd (r ++ ['\r']) = trimEnd r := trimEnd_append_of_blank (by decide) r
  obtain ⟨b, -, hr⟩ := exists_trimEnd_append_blank r
  rw [hb] at h
  have := congrArg List.length (h ▸ hr)
  simp at this

/-- What stands behind something else can be a line only if it is one itself. -/
lemma IsLine.append {s l : Text} (hs : '\n' ∉ s) (h : IsLine l) (hne : l ≠ []) :
    IsLine (s ++ l) := by
  refine ⟨by simp [hs, h.noFeed], fun r hr => ?_⟩
  obtain ⟨d, c, rfl⟩ : ∃ d c, l = d ++ [c] :=
    ⟨l.dropLast, l.getLast hne, (List.dropLast_append_getLast hne).symm⟩
  rw [← List.append_assoc] at hr
  obtain rfl : c = '\r' := by simpa using (List.append_inj' hr rfl).2
  exact h.noReturn d rfl

/-- The two line ends there are. -/
def IsLineEnd (e : Text) : Prop := e = "\n" ∨ e = "\r\n"

/-- Lines with a line end between them. -/
def joinLines (lineEnd first : Text) (rest : List Text) : Text :=
  first ++ rest.flatMap (lineEnd ++ ·)

@[simp] lemma joinLines_nil (lineEnd first : Text) : joinLines lineEnd first [] = first := by
  simp [joinLines]

@[simp] lemma joinLines_cons (lineEnd first l : Text) (rest : List Text) :
    joinLines lineEnd first (l :: rest) = first ++ lineEnd ++ joinLines lineEnd l rest := by
  simp [joinLines]

/-- A line stands apart from the next one by a line feed, with or without a carriage return. -/
lemma IsLineEnd.exists_splitOn_joinLines {lineEnd : Text} (he : IsLineEnd lineEnd) :
    ∃ r, (r = [] ∨ r = ['\r']) ∧ ∀ (first l : Text) (rest : List Text),
      splitOn '\n' (joinLines lineEnd first (l :: rest)) =
        splitOn '\n' (first ++ r) ++ splitOn '\n' (joinLines lineEnd l rest) := by
  rcases he with rfl | rfl
  · refine ⟨[], .inl rfl, fun first l rest => ?_⟩
    rw [← splitOn_append_mark]
    simp
  · refine ⟨['\r'], .inr rfl, fun first l rest => ?_⟩
    rw [← splitOn_append_mark]
    simp

end Text

namespace DocTree
open Text

lemma before?_return_of_isLine {l : Text} (h : IsLine l) : before? "\r" l = none := by
  cases hb : before? "\r" l with
  | none => rfl
  | some r => exact absurd (before?_eq_some_iff.mp hb).symm (h.noReturn r)

/-- Lines are found again, whichever line end is between them. -/
theorem sourceLines_joinLines {lineEnd first : Text} {rest : List Text} (he : IsLineEnd lineEnd)
    (hf : IsLine first) (hr : ∀ l ∈ rest, IsLine l) :
    sourceLines (joinLines lineEnd first rest) = first :: rest := by
  induction rest generalizing first with
  | nil =>
    rw [joinLines_nil, sourceLines, splitOn_of_notMem hf.noFeed, List.map_singleton,
      before?_return_of_isLine hf]
    rfl
  | cons l rest ih =>
    have ih := ih (hr l (by simp)) fun l' hl' => hr l' (by simp [hl'])
    obtain ⟨r, hreturn, hsplit⟩ := he.exists_splitOn_joinLines
    rw [sourceLines] at ih ⊢
    rcases hreturn with rfl | rfl
    · rw [hsplit, List.append_nil, splitOn_of_notMem hf.noFeed, List.singleton_append,
        List.map_cons, ih, before?_return_of_isLine hf]
      rfl
    · have hb : before? "\r" (first ++ ['\r']) = some first := before?_eq_some_iff.mpr rfl
      rw [hsplit, splitOn_of_notMem (by simp [hf.noFeed]), List.singleton_append, List.map_cons, ih,
        hb]
      rfl

lemma occursIn_of_append (part a b : Text) (hp : part ≠ []) :
    occursIn part (a ++ part ++ b) = true := by
  induction a with
  | nil =>
    obtain ⟨c, p, rfl⟩ := List.exists_cons_of_ne_nil hp
    have : startsWith (c :: p) (c :: (p ++ b)) = true := startsWith_iff.mpr ⟨b, rfl⟩
    simp [occursIn, this]
  | cons c a ih => simp_all [occursIn]

lemma occursIn_crlf_cons {c : Char} {s : Text} (h : ∀ r, c :: s ≠ '\r' :: '\n' :: r) :
    occursIn "\r\n" (c :: s) = occursIn "\r\n" s := by
  have hc : startsWith "\r\n" (c :: s) = false := by
    rw [Bool.eq_false_iff]
    intro hs
    obtain ⟨r, hr⟩ := startsWith_iff.mp hs
    exact h r hr.symm
  rw [occursIn, hc, Bool.false_or]

/-- Between lines that stand apart by line feeds alone, no carriage return comes before one. -/
lemma occursIn_crlf_joinLines {first : Text} {rest : List Text} (hf : IsLine first)
    (hr : ∀ l ∈ rest, IsLine l) : occursIn "\r\n" (joinLines "\n" first rest) = false := by
  induction rest generalizing first with
  | nil =>
    rw [joinLines_nil]
    induction first with
    | nil => rfl
    | cons c first ih =>
      rw [occursIn_crlf_cons fun r hr => hf.noFeed (by simp [hr])]
      exact ih (hf.of_suffix (List.suffix_cons _ _))
  | cons l rest ih =>
    have ih := ih (hr l (by simp)) fun l' hl' => hr l' (by simp [hl'])
    rw [joinLines_cons]
    induction first with
    | nil =>
      have hc : ∀ r, '\n' :: joinLines "\n" l rest ≠ '\r' :: '\n' :: r := fun r h =>
        absurd (List.cons.inj h).1 (by decide)
      exact (occursIn_crlf_cons hc).trans ih
    | cons c first ihf =>
      rw [List.cons_append, List.cons_append, occursIn_crlf_cons]
      · exact ihf (hf.of_suffix (List.suffix_cons _ _))
      · intro r h
        obtain ⟨rfl, hrest⟩ := List.cons.inj h
        cases first with
        | nil => exact hf.noReturn [] rfl
        | cons d first =>
          obtain rfl : d = '\n' := (List.cons.inj hrest).1
          exact hf.noFeed (by simp)

/-- Which line end was used is found again, if there is more than one line. -/
theorem lineEndOf_joinLines {lineEnd first : Text} {rest : List Text} (he : IsLineEnd lineEnd)
    (hf : IsLine first) (hr : ∀ l ∈ rest, IsLine l) (hne : rest ≠ []) :
    lineEndOf (joinLines lineEnd first rest) = lineEnd := by
  rw [lineEndOf]
  rcases he with rfl | rfl
  · rw [occursIn_crlf_joinLines hf hr]
    rfl
  · obtain ⟨l, rest, rfl⟩ := List.exists_cons_of_ne_nil hne
    rw [joinLines_cons, occursIn_of_append _ _ _ (by simp)]
    rfl

end DocTree
end DocTypes
