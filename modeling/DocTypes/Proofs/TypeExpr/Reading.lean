import DocTypes.Proofs.TypeExpr.NameReading
import DocTypes.Proofs.TypeExpr.Regroup

/-!
Reading a printed type back, in front of whatever cannot go on with it. Where an `&` comes to
stand before a `$`, reading stops in front of it, and nothing that is read later gets past it.
-/
namespace DocTypes.TypeExpr
open Piece

variable {ι α β : Type}

/-- If the step succeeds at all, then in front of a parameter passed by reference. -/
def Blocked (x : Except Text (α × Text)) : Prop :=
  ∀ a r, x = .ok (a, r) → ∃ r', r = '&' :: '$' :: r'

/-- The step results in `y` if it is `good`, and is blocked otherwise. -/
def Yields (x : Except Text (α × Text)) (good : Bool) (y : α × Text) : Prop :=
  if good then x = .ok y else Blocked x

lemma blocked_error (e : Text) : Blocked (.error e : Except Text (α × Text)) := nofun

lemma blocked_ok (a : α) (r : Text) : Blocked (.ok (a, '&' :: '$' :: r)) := by
  intro b s h
  cases h
  exact ⟨r, rfl⟩

lemma yields_ok (y : α × Text) : Yields (.ok y) true y := rfl

lemma Blocked.bind {x : Except Text (α × Text)} {f : α × Text → Except Text (β × Text)}
    (hx : Blocked x) (hf : ∀ a r, Blocked (f (a, '&' :: '$' :: r))) : Blocked (x >>= f) := by
  cases x with
  | error e => exact blocked_error e
  | ok y =>
    obtain ⟨a, r⟩ := y
    obtain ⟨r', rfl⟩ := hx a r rfl
    exact hf a r'

/-- A step and another behind it, which gets no further where the first is blocked. -/
lemma Yields.bind {x : Except Text (α × Text)} {f : α × Text → Except Text (β × Text)}
    {good good' : Bool} {y : α × Text} {z : β × Text} (hx : Yields x good y)
    (hf : Yields (f y) good' z) (hb : ∀ a r, Blocked (f (a, '&' :: '$' :: r))) :
    Yields (x >>= f) (good && good') z := by
  cases good with
  | false => exact Blocked.bind hx hb
  | true =>
    obtain rfl : x = .ok y := hx
    rw [Bool.true_and]
    exact hf

lemma Yields.map {x : Except Text (α × Text)} {good : Bool} {a : α} {r : Text}
    (hx : Yields x good (a, r)) (f : α → β) :
    Yields (x >>= fun y => pure (f y.1, y.2)) good (f a, r) := by
  rw [← Bool.and_true good]
  exact hx.bind (yields_ok _) fun b s => blocked_ok (f b) s

/-! Items behind separators. -/

section
variable {behind : Text → Option Text} {item : Step α} {r : Text} {is : List ι}
variable (mark : Char) (text : ι → Text) (good joins : ι → Bool) (ends : Text → Prop)

lemma ends_flatMap (hr : ends r) (hm : ∀ x, ends (mark :: x)) (is : List ι) :
    ends (is.flatMap (fun i => mark :: text i) ++ r) := by
  cases is with
  | nil => exact hr
  | cons i is => exact hm _

lemma readMore_of_none (hs : behind r = none) (bound : Nat) :
    readMore behind item bound r = .ok ([], r) := by
  cases bound with
  | zero => rfl
  | succ bound => simp [readMore, hs]

/-- Induction over the items. An item that does not join stops the reading in front of its mark. -/
lemma readMore_flatMap (value : ι → α) (hb : ∀ x, behind ('&' :: '$' :: x) = none)
    (hr : behind r = none) (hends : ends r) (hm : ∀ x, ends (mark :: x))
    (hjoin : ∀ i ∈ is, joins i = true → ∀ x, behind (mark :: text i ++ x) = some (text i ++ x))
    (hcut : ∀ i ∈ is, joins i = false → ∃ x, mark :: text i = '&' :: '$' :: x)
    (hitem : ∀ i ∈ is, ∀ x, ends x → Yields (item (text i ++ x)) (good i) (value i, x))
    {bound : Nat} (hbound : is.length ≤ bound) :
    Yields (readMore behind item bound (is.flatMap (fun i => mark :: text i) ++ r))
      (is.all fun i => good i && joins i) (is.map value, r) := by
  induction is generalizing bound with
  | nil => exact readMore_of_none hr bound
  | cons i is ih =>
    obtain ⟨bound, rfl⟩ : ∃ b, bound = b + 1 := ⟨bound - 1, by simp at hbound; omega⟩
    rw [List.flatMap_cons, List.append_assoc]
    have hrest : ends (is.flatMap (fun i => mark :: text i) ++ r) :=
      ends_flatMap mark text ends hends hm is
    cases hj : joins i with
    | false =>
      obtain ⟨x, hx⟩ := hcut i (by simp) hj
      rw [hx, List.cons_append, List.cons_append, readMore_of_none (hb _)]
      simpa [Yields, hj] using blocked_ok _ _
    | true =>
      have ih := ih (fun i hi => hjoin i (by simp [hi])) (fun i hi => hcut i (by simp [hi]))
        (fun i hi => hitem i (by simp [hi])) (by simpa using hbound)
      rw [readMore, hjoin i (by simp) hj, List.all_cons, hj, Bool.and_true]
      refine (hitem i (by simp) _ hrest).bind (ih.map (value i :: ·)) fun a s => ?_
      dsimp only
      rw [readMore_of_none (hb s)]
      exact blocked_ok _ _

lemma readJoined_flatMap (value : ι → TypeExpr Text) {make : List (TypeExpr Text) → TypeExpr Text}
    {member : Step (TypeExpr Text)} {i : ι}
    (hb : ∀ x, behind ('&' :: '$' :: x) = none) (hr : behind r = none)
    (hends : ends r) (hm : ∀ x, ends (mark :: x))
    (hjoin : ∀ i ∈ is, joins i = true → ∀ x, behind (mark :: text i ++ x) = some (text i ++ x))
    (hcut : ∀ i ∈ is, joins i = false → ∃ x, mark :: text i = '&' :: '$' :: x)
    (hitem : ∀ j ∈ i :: is, ∀ x, ends x → Yields (member (text j ++ x)) (good j) (value j, x)) :
    Yields (readJoined make behind member (text i ++ is.flatMap (fun i => mark :: text i) ++ r))
      (good i && is.all fun i => good i && joins i)
      (if is.isEmpty then value i else make ((i :: is).map value), r) := by
  have hlen : is.length ≤ (is.flatMap (fun i => mark :: text i) ++ r).length := by
    have : is.length ≤ (is.flatMap fun i => mark :: text i).length :=
      length_le_length_flatMap (by simp)
    rw [List.length_append]
    omega
  have hmore := readMore_flatMap mark text good joins ends value hb hr hends hm hjoin hcut
    (fun j hj => hitem j (List.mem_cons_of_mem _ hj)) hlen
  rw [List.append_assoc, readJoined]
  refine (hitem i (by simp) _ (ends_flatMap mark text ends hends hm is)).bind ?_ fun a s => ?_
  · have := hmore.map fun ts => if ts.isEmpty then value i else make (value i :: ts)
    simpa using this
  · dsimp only
    rw [readMore_of_none (hb s)]
    exact blocked_ok _ _

end

/-! Pieces between `&`, and groups between `|`. -/

lemma takeBrackets_of_stops {r : Text} (h : stops ['['] r) (t : TypeExpr Text) :
    takeBrackets t r = (t, r) := by
  cases r with
  | nil => rfl
  | cons c r =>
    rw [takeBrackets]
    rintro r' h'
    obtain rfl : c = '[' := (List.cons.inj h').1
    simp at h

lemma stops_mark {c : Char} {marks : List Char} (hc : c ∈ ['<', '[', '&', '|', '>', ')', ','])
    (hm : c ∉ marks) {x : Text} : stops marks (c :: x) = true := by
  have key : ∀ c ∈ ['<', '[', '&', '|', '>', ')', ','], continuesName c = false :=
    Text.forall_eq_false_of_any (by decide +kernel)
  simp [key c hc, hm]

/-- Wherever the marks do not follow, the piece is read as its type, with the `[]` behind it. -/
structure Reads (marks : List Char) (p : Piece) : Prop where
  ne_nil : p.text ≠ []
  yields : ∀ d r, p.text.length < d → stops marks r →
    Yields (readPostfix (readAtom d) (p.text ++ r)) p.readable (takeBrackets p.type r)

lemma Reads.mono {marks marks' : List Char} {p : Piece} (h : Reads marks p) (hs : marks ⊆ marks') :
    Reads marks' p :=
  ⟨h.ne_nil, fun d r hd hr => h.yields d r hd (stops_of_subset hr hs)⟩

lemma behindAmpersand_of_stops {r : Text} (h : stops ['&'] r) : behindAmpersand r = none := by
  cases r with
  | nil => rfl
  | cons c r =>
    unfold behindAmpersand
    split <;> simp_all

lemma behindBar_of_stops {r : Text} (h : stops ['|'] r) : behindBar r = none := by
  cases r with
  | nil => rfl
  | cons c r =>
    unfold behindBar
    split <;> simp_all

lemma behindAmpersand_append {s : Text} (h : isJoinable s) (hs : s ≠ []) (x : Text) :
    behindAmpersand ('&' :: s ++ x) = some (s ++ x) := by
  obtain ⟨c, s, rfl⟩ := List.exists_cons_of_ne_nil hs
  have hc : c ≠ '$' := by
    rintro rfl
    simp [isJoinable, Text.startsWith] at h
  rw [List.cons_append, List.cons_append, behindAmpersand]
  rintro r h'
  exact hc (List.cons.inj h').1

lemma exists_of_not_isJoinable {s : Text} (h : isJoinable s = false) : ∃ x, s = '$' :: x := by
  cases s with
  | nil => simp [isJoinable, Text.startsWith] at h
  | cons c s =>
    obtain rfl : '$' = c := by simpa [isJoinable, Text.startsWith] using h
    exact ⟨s, rfl⟩

lemma readGroup_jointText {g : List Piece} (hne : g ≠ []) (h : ∀ p ∈ g, Reads ['<', '['] p)
    {d : Nat} (hd : ∀ p ∈ g, p.text.length < d) {r : Text} (hr : stops ['<', '[', '&'] r) :
    Yields (readJoined .intersection behindAmpersand (readPostfix (readAtom d)) (jointText g ++ r))
      (jointReadable g) (jointType g, r) := by
  obtain ⟨p, ps, rfl⟩ := List.exists_cons_of_ne_nil hne
  have hread : jointReadable (p :: ps) =
      (p.readable && ps.all fun q => q.readable && isJoinable q.text) := by
    rw [Bool.eq_iff_iff]
    simp [jointReadable, forall_and, and_assoc]
  have htype : jointType (p :: ps) =
      if ps.isEmpty then p.type else .intersection ((p :: ps).map (·.type)) := by
    cases ps <;> rfl
  rw [jointText_cons, hread, htype]
  refine readJoined_flatMap '&' Piece.text Piece.readable (fun q => isJoinable q.text)
    (stops ['<', '['] ·) Piece.type (fun _ => rfl)
    (behindAmpersand_of_stops (stops_of_subset hr (by simp))) (stops_of_subset hr (by simp))
    (fun x => stops_mark (by simp) (by simp)) (fun q hq hj x => ?_) (fun q hq hj => ?_)
    fun q hq x hx => ?_
  · exact behindAmpersand_append hj (h q (by simp [hq])).ne_nil x
  · obtain ⟨x, hx⟩ := exists_of_not_isJoinable hj
    exact ⟨x, congrArg _ hx⟩
  · have := (h q hq).yields d x (hd q hq) hx
    rwa [takeBrackets_of_stops (stops_of_subset hx (by simp))] at this

lemma length_text_le {p : Piece} {gs : List (List Piece)} (h : p ∈ gs.flatten) :
    p.text.length ≤ (wholeText gs).length := by
  obtain ⟨g, hg, hp⟩ := List.mem_flatten.mp h
  calc p.text.length ≤ (jointText g).length :=
        Text.length_le_length_join "&" (List.mem_map_of_mem hp)
    _ ≤ (wholeText gs).length := Text.length_le_length_join "|" (List.mem_map_of_mem hg)

/-- The pieces make up a whole type, and each of them is read for itself. -/
structure Legible (gs : List (List Piece)) : Prop where
  full : Full gs
  solid : Text.Solid (wholeText gs)
  reads : ∀ p ∈ gs.flatten, Reads ['<', '['] p

lemma readType_wholeText {gs : List (List Piece)} (h : Legible gs) {d : Nat}
    (hd : (wholeText gs).length < d) {r : Text} (hr : stops ['<', '[', '&', '|'] r) :
    Yields (readType (readAtom d) (wholeText gs ++ r)) (wholeReadable gs) (wholeType gs, r) := by
  have hshort : ∀ p ∈ gs.flatten, p.text.length < d := fun p hp =>
    (length_text_le hp).trans_lt hd
  obtain ⟨g, gs, rfl⟩ := List.exists_cons_of_ne_nil h.full.1
  have hread : wholeReadable (g :: gs) =
      (jointReadable g && gs.all fun h => jointReadable h && true) := by simp [wholeReadable]
  have htype : wholeType (g :: gs) =
      if gs.isEmpty then jointType g else .union ((g :: gs).map jointType) := by
    cases gs <;> rfl
  rw [wholeText_cons, hread, htype]
  refine readJoined_flatMap '|' jointText jointReadable (fun _ => true) (stops ['<', '[', '&'] ·)
    jointType (fun _ => rfl) (behindBar_of_stops (stops_of_subset hr (by simp)))
    (stops_of_subset hr (by simp)) (fun x => stops_mark (by simp) (by simp)) (fun _ _ _ _ => rfl)
    (fun _ _ hj => absurd hj (by simp)) fun g' hg' x hx => ?_
  have hmem : ∀ p ∈ g', p ∈ (g :: gs).flatten := fun p hp => List.mem_flatten_of_mem hg' hp
  exact readGroup_jointText (h.full.2 g' hg') (fun p hp => h.reads p (hmem p hp))
    (fun p hp => hshort p (hmem p hp)) hx

/-! The pieces one by one. -/

lemma reads_of_readAtom {p : Piece} (hne : p.text ≠ [])
    (h : ∀ d r, p.text.length < d → stops ['<'] r →
      Yields (readAtom d (p.text ++ r)) p.readable (p.type, r)) : Reads ['<'] p := by
  refine ⟨hne, fun d r hd hr => ?_⟩
  rw [readPostfix, ← Bool.and_true p.readable]
  exact (h d r hd hr).bind (yields_ok _) fun a s => blocked_ok a s

lemma readAtom_of_head {c : Char} (hq : c ≠ '?') (hp : c ≠ '(') (d : Nat) (s : Text) :
    readAtom (d + 1) (c :: s) = do
      let (base, r) ← readName (c :: s)
      match r with
      | '<' :: r =>
        let arg := readSpaced (readType (readAtom d))
        let (t, r) ← arg r
        let (ts, r) ← readMore behindComma arg r.length r
        return (.generic base (t :: ts), ← readChar '>' r)
      | r => return (.name base, r) := by
  refine readAtom.eq_4 (c :: s) d (fun r h => ?_) fun r h => ?_
  · exact hq (List.cons.inj h).1
  · exact hp (List.cons.inj h).1

lemma reads_name {n : Text} (h : isWord n) : Reads ['<'] ⟨n, .name n, isName n⟩ := by
  obtain ⟨c, s, rfl, -, hq, hp⟩ := exists_cons_of_isWord h
  refine reads_of_readAtom (by simp) fun d r hd hr => ?_
  obtain ⟨d, rfl⟩ : ∃ d', d = d' + 1 := ⟨d - 1, by simp at hd; omega⟩
  simp only [List.cons_append]
  rw [readAtom_of_head hq hp, ← List.cons_append]
  rcases Bool.or_eq_true _ _ ▸ h with h | h
  · rw [readName_append h (stops_of_subset hr (by simp)), h]
    simp only [bind, Except.bind]
    split
    · simp at hr
    · exact yields_ok _
  · obtain ⟨e, he⟩ := readName_of_isStray h r
    rw [he, isName_of_isStray h]
    exact blocked_error e

lemma reads_optional {p : Piece} (h : Reads ['<', '['] p) : Reads ['<', '['] (optional p) := by
  refine ⟨by simp [Piece.optional], fun d r hd hr => ?_⟩
  obtain ⟨d, rfl⟩ : ∃ d', d = d' + 1 := ⟨d - 1, by omega⟩
  simp only [Piece.optional, List.length_cons, List.cons_append] at hd ⊢
  have hb : stops ['['] r := stops_of_subset hr (by simp)
  have hp := h.yields d r (by omega) hr
  rw [takeBrackets_of_stops hb] at hp ⊢
  have := hp.map TypeExpr.nullable
  rw [readPostfix, readAtom, ← Bool.and_true p.readable]
  refine this.bind ?_ fun a s => blocked_ok a s
  simp only [takeBrackets_of_stops hb]
  exact yields_ok _

/-- A bracket binds to what can stand in front of it without parentheses. -/
lemma reads_bracketed {p : Piece} (h : Reads ['<'] p) : Reads ['<'] (bracketed [[p]]) := by
  refine ⟨by simp [bracketed], fun d r hd hr => ?_⟩
  simp only [bracketed, wholeText_singleton, List.length_append, List.append_assoc] at hd ⊢
  have := h.yields d ('[' :: ']' :: r) (by omega) (stops_mark (by simp) (by simp))
  simpa [takeBrackets] using this

/-- Blanks around an item do not count. -/
lemma readSpaced_yields {item : Step α} {s t r : Text} {good : Bool} {a : α}
    (h : Yields (item (Text.trimStart s)) good (a, t)) (ht : Text.trimStart t = r) :
    Yields (readSpaced item s) good (a, r) := by
  rw [readSpaced, ← Bool.and_true good, ← ht]
  exact h.bind (yields_ok _) fun b s => blocked_ok b s

/-- A whole type behind blanks, in front of a mark that cannot go on with it. -/
lemma readSpaced_wholeText {gs : List (List Piece)} (h : Legible gs) {d : Nat}
    (hd : (wholeText gs).length < d) {b : Text} (hb : Text.isAllBlank b)
    {c : Char} (hc : c ∈ [')', '>', ',']) (r : Text) :
    Yields (readSpaced (readType (readAtom d)) (b ++ wholeText gs ++ c :: r)) (wholeReadable gs)
      (wholeType gs, c :: r) := by
  have hc' : Text.isBlank c = false := by
    have key : ∀ c ∈ [')', '>', ','], Text.isBlank c = false :=
      Text.forall_eq_false_of_any (by decide)
    exact key c hc
  refine readSpaced_yields ?_ (Text.trimStart_cons hc' r)
  rw [List.append_assoc, Text.trimStart_append_of_blank hb, h.solid.trimStart_append]
  refine readType_wholeText h hd ?_
  simp only [List.mem_cons, List.not_mem_nil, or_false] at hc
  rcases hc with rfl | rfl | rfl <;> exact stops_mark (by simp) (by simp)

lemma readChar_cons (c : Char) (r : Text) : readChar c (c :: r) = .ok r := by simp [readChar]

lemma reads_parenthesized {gs : List (List Piece)} (h : Legible gs) :
    Reads ['<'] (parenthesized gs) := by
  refine reads_of_readAtom (by simp [parenthesized]) fun d r hd hr => ?_
  obtain ⟨d, rfl⟩ : ∃ d', d = d' + 1 := ⟨d - 1, by omega⟩
  simp only [parenthesized, List.length_cons, List.length_append, List.cons_append,
    List.append_assoc] at hd ⊢
  have hin := readSpaced_wholeText h (d := d) (by omega) (b := []) rfl (c := ')') (by simp) r
  rw [readAtom, ← Bool.and_true (wholeReadable gs)]
  refine hin.bind ?_ fun a s => ?_
  · simp only [readChar_cons]
    exact yields_ok _
  · exact blocked_error _

/-- All arguments but the first, with what stands in front of each, and the closing mark. -/
def laterArgs (args : List (List (List Piece))) (r : Text) : Text :=
  args.flatMap (fun gs => ',' :: ' ' :: wholeText gs) ++ '>' :: r

lemma exists_laterArgs_eq_cons (args : List (List (List Piece))) (r : Text) :
    ∃ c ∈ [')', '>', ','], ∃ s, laterArgs args r = c :: s := by
  cases args with
  | nil => exact ⟨'>', by simp, r, rfl⟩
  | cons gs args => exact ⟨',', by simp, _, rfl⟩

lemma readMore_laterArgs {args : List (List (List Piece))} (h : ∀ gs ∈ args, Legible gs) {d : Nat}
    (hd : ∀ gs ∈ args, (wholeText gs).length < d) (r : Text) :
    Yields (readMore behindComma (readSpaced (readType (readAtom d))) (laterArgs args r).length
      (laterArgs args r)) (args.all fun gs => wholeReadable gs && true)
      (args.map wholeType, '>' :: r) := by
  refine readMore_flatMap ',' (fun gs => ' ' :: wholeText gs) wholeReadable (fun _ => true)
    (fun x => ∃ c ∈ [')', '>', ','], ∃ s, x = c :: s) wholeType (fun _ => rfl) rfl
    ⟨'>', by simp, r, rfl⟩ (fun x => ⟨',', by simp, x, rfl⟩) (fun _ _ _ _ => rfl)
    (fun _ _ hj => absurd hj (by simp)) (fun gs hgs x hx => ?_) ?_
  · obtain ⟨c, hc, s, rfl⟩ := hx
    exact readSpaced_wholeText (h gs hgs) (hd gs hgs) (b := [' ']) rfl hc s
  · have : args.length ≤ (args.flatMap fun gs => ',' :: ' ' :: wholeText gs).length :=
      length_le_length_flatMap (by simp)
    rw [laterArgs, List.length_append]
    omega

lemma reads_applied {b : Text} {args : List (List (List Piece))} (hb : isWord b) (hne : args ≠ [])
    (h : ∀ gs ∈ args, Legible gs) : Reads ['<'] (applied b args) := by
  obtain ⟨g, gs, rfl⟩ := List.exists_cons_of_ne_nil hne
  obtain ⟨c, s, hcs, -, hq, hp⟩ := exists_cons_of_isWord hb
  refine reads_of_readAtom (by simp [applied, hcs]) fun d r hd hr => ?_
  obtain ⟨d, rfl⟩ : ∃ d', d = d' + 1 := ⟨d - 1, by omega⟩
  have htext : (applied b (g :: gs)).text ++ r = b ++ '<' :: (wholeText g ++ laterArgs gs r) := by
    simp [applied, laterArgs, Text.join_cons, List.flatMap_map]
  have hd' : ∀ g' ∈ g :: gs, (wholeText g').length < d := by
    intro g' hg'
    have hj := Text.length_le_length_join ", " (List.mem_map_of_mem (f := wholeText) hg')
    simp only [applied, List.length_append, List.length_cons] at hd
    omega
  rw [htext, hcs, List.cons_append, readAtom_of_head hq hp, ← List.cons_append, ← hcs]
  rcases Bool.or_eq_true _ _ ▸ hb with hn | hn
  · rw [readName_append hn (stops_mark (by simp) (by simp))]
    have hfirst : Yields (readSpaced (readType (readAtom d)) (wholeText g ++ laterArgs gs r))
        (wholeReadable g) (wholeType g, laterArgs gs r) := by
      obtain ⟨e, he, y, hy⟩ := exists_laterArgs_eq_cons gs r
      rw [hy]
      exact readSpaced_wholeText (h g (by simp)) (hd' g (by simp)) (b := []) rfl he y
    have hmore := readMore_laterArgs (fun g' hg' => h g' (List.mem_cons_of_mem g hg'))
      (fun g' hg' => hd' g' (List.mem_cons_of_mem g hg')) r
    have hread : (applied b (g :: gs)).readable =
        (wholeReadable g && ((gs.all fun g => wholeReadable g && true) && true)) := by
      simp [applied, hn]
    rw [hread]
    refine hfirst.bind (hmore.bind ?_ fun a s => blocked_error _) fun a s => ?_
    · simp only [readChar_cons]
      exact yields_ok _
    · dsimp only
      rw [readMore_of_none rfl]
      exact blocked_error _
  · obtain ⟨e, he⟩ := readName_of_isStray hn ('<' :: (wholeText g ++ laterArgs gs r))
    rw [he]
    simp only [applied, isName_of_isStray hn]
    exact blocked_error e

/-! Whole types. -/

lemma solid_join (sep : Text) {ps : List Text} (h : ∀ p ∈ ps, Text.Solid p) (hne : ps ≠ []) :
    Text.Solid (Text.join sep ps) := by
  induction ps with
  | nil => exact absurd rfl hne
  | cons p ps ih =>
    cases ps with
    | nil => simpa [Text.join] using h p (by simp)
    | cons q qs =>
      rw [Text.join_cons_cons]
      exact (h p (by simp)).between sep (ih (fun q' hq' => h q' (by simp [hq'])) (by simp))

lemma solid_parenthesizedIf {s : Text} (h : Text.Solid s) (b : Bool) :
    Text.Solid (parenthesizedIf b s) := by
  cases b with
  | false => exact h
  | true =>
    have := (Text.Solid.singleton (c := '(') (by decide)).between s
      (Text.Solid.singleton (c := ')') (by decide))
    simpa [parenthesizedIf] using this

/-- What is known of a union, or of an intersection, is known of its members. -/
lemma members_of_isProper {ts : List (TypeExpr Text)} {P : Text → Prop}
    (h : (union ts).isProper) (hn : ∀ n ∈ (union ts).names, P n) :
    ts ≠ [] ∧ ∀ t ∈ ts, t.isProper ∧ ∀ n ∈ t.names, P n := by
  rw [isProper_union] at h
  simp only [names, namesList_eq, List.mem_flatMap] at hn
  refine ⟨List.ne_nil_of_length_pos (by omega), fun t ht => ⟨h.2 t ht, fun n hn' => ?_⟩⟩
  exact hn n ⟨t, ht, hn'⟩

lemma solid_renderMembers (sep : Text) {ts : List (TypeExpr Text)} (hne : ts ≠ [])
    (h : ∀ t ∈ ts, Text.Solid t.render) : Text.Solid (Text.join sep (renderMembers ts)) := by
  rw [renderMembers_eq]
  apply solid_join
  · rw [List.forall_mem_map]
    exact fun t ht => solid_parenthesizedIf (h t ht) _
  · simpa using hne

/-- A printed type has no white space at its ends, if its names have none. -/
lemma solid_render_of_solid {t : TypeExpr Text} (h : t.isProper)
    (hn : ∀ n ∈ t.names, Text.Solid n) : Text.Solid t.render := by
  induction t with
  | name n => exact hn n (by simp [names])
  | nullable t ih => exact (ih h hn).cons (by decide)
  | array t ih =>
    have hb : Text.Solid ("[]" : Text) := ⟨⟨'[', [']'], rfl, by decide⟩, ['['], ']', rfl, by decide⟩
    exact (solid_parenthesizedIf (ih h hn) _).append hb
  | union ts ih =>
    obtain ⟨hne, hts⟩ := members_of_isProper h hn
    exact solid_renderMembers _ hne fun t ht => ih t ht (hts t ht).1 (hts t ht).2
  | intersection ts ih =>
    obtain ⟨hne, hts⟩ := members_of_isProper h hn
    exact solid_renderMembers _ hne fun t ht => ih t ht (hts t ht).1 (hts t ht).2
  | generic b ts ih =>
    have hb : Text.Solid b := hn b (by simp [names])
    have := hb.between ('<' :: Text.join ", " (renderArgs ts))
      (Text.Solid.singleton (c := '>') (by decide))
    simpa [render] using this

lemma solid_render {t : TypeExpr Text} (h : t.isProper) (hn : ∀ n ∈ t.names, isWord n) :
    Text.Solid t.render := solid_render_of_solid h fun n hn' => solid_of_isWord (hn n hn')

/-- Every piece of the printed type is read for itself, and `[]` may follow a type that is not
loose: it is a single piece. -/
structure ReadsApart (t : TypeExpr Text) : Prop where
  reads : ∀ p ∈ (pieces t).flatten, Reads ['<', '['] p
  tight : t.isLoose = false → ∃ p, pieces t = [[p]] ∧ Reads ['<'] p

lemma readsApart_of_piece {t : TypeExpr Text} {p : Piece} (hp : pieces t = [[p]])
    (h : Reads ['<'] p) : ReadsApart t := by
  refine ⟨fun q hq => ?_, fun _ => ⟨p, hp, h⟩⟩
  obtain rfl : q = p := by simpa [hp] using hq
  exact h.mono (by simp)

lemma ReadsApart.legible {t : TypeExpr Text} (h : ReadsApart t) (hp : t.isProper)
    (hn : ∀ n ∈ t.names, isWord n) : Legible (pieces t) :=
  ⟨pieces_full t hp, wholeText_pieces t hp ▸ solid_render hp hn, h.reads⟩

lemma reads_memberPieces {t : TypeExpr Text} (h : Legible (pieces t)) :
    ∀ p ∈ (memberPieces t).flatten, Reads ['<', '['] p := by
  rw [memberPieces]
  cases t.isCompound with
  | false => exact h.reads
  | true =>
    intro p hp
    obtain rfl : p = parenthesized (pieces t) := by simpa [wrapIf] using hp
    exact (reads_parenthesized h).mono (by simp)

lemma readsApart_nullable {t : TypeExpr Text} (h : Legible (pieces t)) :
    ReadsApart (.nullable t) := by
  refine ⟨fun p hp => ?_, fun hl => absurd hl (by simp [isLoose])⟩
  obtain ⟨q, g, gs, hq⟩ := h.full.exists_cons
  have hr := h.reads
  rw [hq] at hr
  rw [pieces, hq, onFirst] at hp
  simp only [List.flatten_cons, List.cons_append, List.mem_cons] at hr hp
  rcases hp with rfl | hp
  · exact reads_optional (hr q (.inl rfl))
  · exact hr p (.inr hp)

lemma readsApart_array {t : TypeExpr Text} (ht : ReadsApart t) (h : Legible (pieces t)) :
    ReadsApart (.array t) := by
  refine readsApart_of_piece rfl ?_
  cases hl : t.isLoose with
  | true => exact reads_bracketed (reads_parenthesized h)
  | false =>
    obtain ⟨p, hp, hr⟩ := ht.tight hl
    rw [hp]
    exact reads_bracketed hr

/-- Members side by side are read apart if each of them can be read in parentheses. -/
lemma readsApart_members {t : TypeExpr Text} {ts : List (TypeExpr Text)}
    (hp : (pieces t).flatten = ts.flatMap fun t => (memberPieces t).flatten) (hl : t.isLoose)
    (h : ∀ t ∈ ts, Legible (pieces t)) : ReadsApart t := by
  refine ⟨fun p hp' => ?_, fun hl' => absurd hl' (by simp [hl])⟩
  rw [hp] at hp'
  obtain ⟨u, hu, hp'⟩ := List.mem_flatMap.mp hp'
  exact reads_memberPieces (h u hu) p hp'

/-- By induction over the type, each constructor reading its own marks. -/
theorem readsApart {t : TypeExpr Text} (h : t.isProper) (hn : ∀ n ∈ t.names, isWord n) :
    ReadsApart t := by
  induction t with
  | name n => exact readsApart_of_piece rfl (reads_name (hn n (by simp [names])))
  | nullable t ih => exact readsApart_nullable ((ih h hn).legible h hn)
  | array t ih => exact readsApart_array (ih h hn) ((ih h hn).legible h hn)
  | union ts ih =>
    obtain ⟨-, hts⟩ := members_of_isProper h hn
    apply readsApart_members (t := union ts) (flatten_unionPieces ts) rfl
    exact fun t ht => (ih t ht (hts t ht).1 (hts t ht).2).legible (hts t ht).1 (hts t ht).2
  | intersection ts ih =>
    obtain ⟨-, hts⟩ := members_of_isProper h hn
    apply readsApart_members (t := intersection ts) (flatten_intersectionPieces ts) rfl
    exact fun t ht => (ih t ht (hts t ht).1 (hts t ht).2).legible (hts t ht).1 (hts t ht).2
  | generic b ts ih =>
    rw [isProper_generic] at h
    simp only [names, namesList_eq, List.mem_cons, List.mem_flatMap] at hn
    refine readsApart_of_piece rfl (reads_applied (hn b (.inl rfl)) ?_ ?_)
    · simpa [argPieces_eq] using h.1
    · simp only [argPieces_eq, List.forall_mem_map]
      intro t ht
      have hn : ∀ n ∈ t.names, isWord n := fun n hn' => hn n (.inr ⟨t, ht, hn'⟩)
      exact (ih t ht (h.2 t ht) hn).legible (h.2 t ht) hn

end DocTypes.TypeExpr
