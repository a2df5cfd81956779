import DocTypes.Import.Shorten
import DocTypes.Proofs.Doc.VarTypes
import DocTypes.Proofs.Text.Case

/-!
What a name stands for in one scope and, shortened or not, in another. A name that is looked up
stands for what its first segment stands for, followed by its other segments.
-/
namespace DocTypes
open Text

/-! Text. -/

namespace Text

lemma backslash_mem_lower {s : Text} : '\\' ∈ lower s ↔ '\\' ∈ s := mem_lower (by decide)

lemma backslash_mem_of_eqIgnoreCase {s t : Text} (h : eqIgnoreCase s t) (hs : '\\' ∈ s) :
    '\\' ∈ t := by
  rw [eqIgnoreCase_iff] at h
  rw [← backslash_mem_lower, ← h, backslash_mem_lower]
  exact hs

lemma notMem_afterLast (mark : Char) (s : Text) : mark ∉ afterLast mark s := by
  intro h
  have := List.mem_takeWhile_imp (List.mem_reverse.mp h)
  simp at this

lemma subset_afterLast (mark : Char) (s : Text) : afterLast mark s ⊆ s := by
  intro c hc
  exact List.mem_reverse.mp ((List.takeWhile_prefix _).subset (List.mem_reverse.mp hc))

end Text

/-! Short names. -/

namespace Name
open TypeExpr

/-- Without backslashes in front every name but `$this` is spelled. -/
lemma isSpelled_unrooted {w : Text} (h : isName w) (hn : isNamespaced w) :
    isSpelled (unrooted w) := by
  rcases isName_cases h with rfl | ⟨s, rfl, hs⟩ | hs
  · exact absurd hn (by decide)
  · have : unrooted ('\\' :: s) = s :=
      (unrooted_backslash s).trans (unrooted_of_isSpelled hs)
    rwa [this]
  · rwa [unrooted_of_isSpelled hs]

/-- The last segment of a name is a name, unless something else than a letter is in front. -/
lemma isWord_short {w : Text} (h : isName w) (hn : isNamespaced w) : isWord (short w) := by
  have hs := isSpelled_unrooted h hn
  unfold short
  split
  · simp [isWord, isName_of_isSpelled hs]
  · rename_i segment hne
    obtain ⟨c, r, hcr⟩ := List.exists_cons_of_ne_nil hne
    have hcont : ∀ d ∈ c :: r, continuesName d = true := fun d hd =>
      continuesName_of_isSpelled hs d (subset_afterLast '\\' _ (hcr ▸ hd))
    have hb : c ≠ '\\' := by
      rintro rfl
      exact notMem_afterLast '\\' (unrooted w) (hcr ▸ List.mem_cons_self)
    rw [hcr]
    cases hc : startsName c with
    | true =>
      have : isSpelled (c :: r) := isSpelled_cons.mpr ⟨hc, fun d hd => hcont d (by simp [hd])⟩
      simp [isWord, isName_of_isSpelled this]
    | false =>
      have : isStray (c :: r) := by simp_all [isStray, isLetterless]
      simp [isWord, this]

lemma notMem_reservedWords : ∀ word ∈ reservedWords, '\\' ∉ word := by decide

/-- A reserved word has one segment. -/
lemma notMem_of_isReserved {w : Text} (h : isWord w) (hr : isReserved w) : '\\' ∉ w := by
  have hw := isReserved_append_brackets h 0
  rw [brackets, List.append_nil, hr] at hw
  rw [← backslash_mem_lower]
  exact notMem_reservedWords _ (by simpa using hw.symm)

lemma isReserved_of_isNamespaced {w : Text} (h : isName w) (hn : isNamespaced w) :
    isReserved w = false := by
  rw [Bool.eq_false_iff]
  intro hr
  have hmem : '\\' ∈ unrooted w := by simpa [isNamespaced] using hn
  exact notMem_of_isReserved (isWord_of_isName h) hr ((List.dropWhile_suffix _).subset hmem)

end Name

/-! Shortening one name. -/

namespace TypeRef

/-- The name stays as it is: it has one segment, or its short name belongs to another class, which is
a class at home or what holds the short name. -/
inductive IsLeft (classExists : Text → Bool) (scope : NameScope) (r : TypeRef) (st : ImportState) :
    Prop
  | segment (alone : Name.isNamespaced r.written = false)
  | sibling (found : classExists (scope.atHome (Name.short r.written)))
      (other : eqIgnoreCase (scope.atHome (Name.short r.written)) r.full = false)
  | taken (missing : classExists (scope.atHome (Name.short r.written)) = false)
      (held : st.pending.isShortTaken scope r.full)
      (other : st.pending.isShortOwn scope r.full = false)

/-- The short name is written in the place of the name: for the class at home, for what holds the short
name, or for an import that is asked for, its short name being free. -/
inductive IsShort (classExists : Text → Bool) (scope : NameScope) (r : TypeRef) (st : ImportState) :
    Prop
  | sibling (found : classExists (scope.atHome (Name.short r.written)))
      (same : eqIgnoreCase (scope.atHome (Name.short r.written)) r.full)
  | own (missing : classExists (scope.atHome (Name.short r.written)) = false)
      (held : st.pending.isShortTaken scope r.full) (same : st.pending.isShortOwn scope r.full)
  | request (missing : classExists (scope.atHome (Name.short r.written)) = false)
      (free : st.pending.isShortTaken scope r.full = false)

/-- The import that is asked for when the name is shortened, if one is. -/
def request? (classExists : Text → Bool) (scope : NameScope) (r : TypeRef) (st : ImportState) :
    Option Text :=
  if Name.isNamespaced r.written && !classExists (scope.atHome (Name.short r.written)) &&
      !st.pending.isShortTaken scope r.full then
    some r.full
  else none

variable {classExists : Text → Bool} {scope : NameScope} {st : ImportState} {r : TypeRef}

lemma shorten_of_isLeft (h : r.IsLeft classExists scope st) :
    r.shorten classExists scope st = (r, st) := by
  cases h with
  | segment alone => simp [shorten, alone]
  | sibling found other => simp [shorten, found, other]
  | taken missing held other => simp [shorten, missing, held, other]

lemma fst_shorten_of_isShort (hn : Name.isNamespaced r.written)
    (h : r.IsShort classExists scope st) :
    (r.shorten classExists scope st).1 = { r with written := Name.short r.written } := by
  cases h with
  | sibling found same => simp [shorten, hn, found, same]
  | own missing held same => simp [shorten, hn, missing, held, same]
  | request missing free => simp [shorten, hn, missing, free]

/-- Any other name is written by its short name. -/
lemma shorten_cases (classExists : Text → Bool) (scope : NameScope) (r : TypeRef)
    (st : ImportState) :
    (r.IsLeft classExists scope st ∧ r.shorten classExists scope st = (r, st)) ∨
      Name.isNamespaced r.written ∧ r.IsShort classExists scope st ∧
        (r.shorten classExists scope st).1 = { r with written := Name.short r.written } := by
  have hcases : r.IsLeft classExists scope st ∨
      Name.isNamespaced r.written ∧ r.IsShort classExists scope st := by
    cases hn : Name.isNamespaced r.written with
    | false => exact .inl (.segment hn)
    | true =>
      cases hfound : classExists (scope.atHome (Name.short r.written)) with
      | true =>
        cases hsame : eqIgnoreCase (scope.atHome (Name.short r.written)) r.full with
        | true => exact .inr ⟨rfl, .sibling hfound hsame⟩
        | false => exact .inl (.sibling hfound hsame)
      | false =>
        cases hheld : st.pending.isShortTaken scope r.full with
        | false => exact .inr ⟨rfl, .request hfound hheld⟩
        | true =>
          cases hown : st.pending.isShortOwn scope r.full with
          | true => exact .inr ⟨rfl, .own hfound hheld hown⟩
          | false => exact .inl (.taken hfound hheld hown)
  obtain hleft | ⟨hn, hshort⟩ := hcases
  · exact .inl ⟨hleft, shorten_of_isLeft hleft⟩
  · exact .inr ⟨hn, hshort, fst_shorten_of_isShort hn hshort⟩

/-- Shortening a name does nothing to the state but record what is asked for. -/
lemma snd_shorten (classExists : Text → Bool) (scope : NameScope) (r : TypeRef)
    (st : ImportState) : (r.shorten classExists scope st).2 =
      (r.request? classExists scope st).toList.foldl (fun st n => st.record scope n) st := by
  unfold shorten request?
  dsimp only
  cases hn : Name.isNamespaced r.written with
  | false => simp
  | true =>
    cases hexists : classExists (scope.atHome (Name.short r.written)) with
    | true => simp
    | false => cases htaken : st.pending.isShortTaken scope r.full <;> simp

lemma of_request? {name : Text} (h : r.request? classExists scope st = some name) :
    st.pending.isShortTaken scope name = false := by
  unfold request? at h
  split at h
  · rename_i hfree
    simp only [Bool.and_eq_true, Bool.not_eq_true'] at hfree
    exact Option.some.inj h ▸ hfree.2
  · cases h

/-- The name was left as it is, or its short name is written in its place. -/
def IsShortened (r r' : TypeRef) : Prop :=
  r' = r ∨ r' = { r with written := Name.short r.written } ∧ Name.isNamespaced r.written

lemma isShortened_shorten (classExists : Text → Bool) (scope : NameScope) (r : TypeRef)
    (st : ImportState) : r.IsShortened (r.shorten classExists scope st).1 := by
  obtain ⟨-, hsame⟩ | ⟨hn, -, hshort⟩ := shorten_cases classExists scope r st
  · exact .inl (congrArg Prod.fst hsame)
  · exact .inr ⟨hshort, hn⟩

/-- What is written then is a name, or stray. -/
lemma isWord_of_isShortened {r r' : TypeRef} (h : r.IsShortened r')
    (hname : TypeExpr.isName r.written) : TypeExpr.isWord r'.written := by
  obtain heq | ⟨heq, hn⟩ := h
  · exact heq ▸ TypeExpr.isWord_of_isName hname
  · rw [heq]
    exact Name.isWord_short hname hn

end TypeRef

/-! Looking names up. -/

namespace NameScope

/-- What the first segment of a name stands for. -/
def head (s : NameScope) (segment : Text) : Text :=
  (s.importedAs? segment).getD (s.atHome segment)

/-- The scope with all imports that are pending for its file, each under its short name. -/
def withPending (p : PendingImports) (s : NameScope) : NameScope :=
  (p.ofFile s.fileKey).toList.foldl (fun s name => s.importShort name) s

lemma resolve_eq_head {w : Text} (h : startsWith "\\" w = false) (s : NameScope) :
    s.resolve w = s.head (w.takeWhile (· != '\\')) ++ w.dropWhile (· != '\\') := by
  unfold resolve head
  split
  · simp [startsWith] at h
  · cases s.importedAs? (w.takeWhile (· != '\\')) with
    | some full => rfl
    | none =>
      rw [Option.getD_none, atHome, atHome]
      cases s.home with
      | some home => simp
      | none => simp

lemma backslash_mem_resolve {w : Text} (h : TypeExpr.isName w) (hn : Name.isNamespaced w)
    (s : NameScope) : '\\' ∈ s.resolve w := by
  have hw : '\\' ∈ Name.unrooted w := by simpa [Name.isNamespaced] using hn
  by_cases hr : startsWith "\\" w
  · obtain ⟨t, rfl⟩ := startsWith_iff.mp hr
    have := Name.unrooted_backslash t
    exact (List.dropWhile_suffix _).subset (this ▸ hw)
  · rw [resolve_eq_head (by simpa using hr)]
    refine List.mem_append_right _ ?_
    cases hd : w.dropWhile (· != '\\') with
    | nil =>
      have := List.dropWhile_eq_nil_iff.mp hd _ ((List.dropWhile_suffix _).subset hw)
      simp at this
    | cons c r =>
      have := List.head?_dropWhile_not (· != '\\') w
      rw [hd] at this
      simp_all

lemma effective_resolveIn (s : NameScope) (w : Text) :
    ((TypeRef.ofWritten w).resolveIn (some s)).effective =
      if Name.isReserved w then w else s.resolve w := by
  unfold TypeRef.resolveIn
  rw [TypeRef.written_ofWritten]
  split <;> rfl

lemma full_resolveIn {w : Text} (h : Name.isReserved w = false) (s : NameScope) :
    ((TypeRef.ofWritten w).resolveIn (some s)).full = Name.unrooted (s.resolve w) := by
  rw [TypeRef.full, effective_resolveIn, h, if_neg (by decide)]

/-- Whether a name that was written `old` stands for the same class in the later scope, where it
is written `new`. A name that was left alone must be rooted or keep the meaning of its first
segment. A short name must not be a reserved word. -/
def keeps (s later : NameScope) (old new : Text) : Bool :=
  if new = old then
    Name.isReserved old || startsWith "\\" old ||
      eqIgnoreCase (s.head (old.takeWhile (· != '\\'))) (later.head (old.takeWhile (· != '\\')))
  else !Name.isReserved new && eqIgnoreCase (s.resolve old) (later.resolve new)

/-- A name that was left alone. -/
lemma keeps_self (s later : NameScope) (w : Text) :
    eqIgnoreCase ((TypeRef.ofWritten w).resolveIn (some s)).effective
        ((TypeRef.ofWritten w).resolveIn (some later)).effective = s.keeps later w w := by
  rw [effective_resolveIn, effective_resolveIn, keeps, if_pos rfl]
  cases hr : Name.isReserved w with
  | true => simp [eqIgnoreCase]
  | false =>
    cases hs : startsWith "\\" w with
    | true =>
      obtain ⟨t, rfl⟩ := startsWith_iff.mp hs
      simp [resolve, eqIgnoreCase]
    | false =>
      rw [if_neg (by decide), if_neg (by decide), resolve_eq_head hs, resolve_eq_head hs,
        eqIgnoreCase_append_right]
      simp

/-- A name that was shortened. -/
lemma keeps_short {w : Text} (h : TypeExpr.isName w) (hn : Name.isNamespaced w)
    (hne : Name.short w ≠ w) (s later : NameScope) :
    eqIgnoreCase ((TypeRef.ofWritten w).resolveIn (some s)).effective
        ((TypeRef.ofWritten (Name.short w)).resolveIn (some later)).effective =
      s.keeps later w (Name.short w) := by
  have hw := Name.isReserved_of_isNamespaced h hn
  rw [effective_resolveIn, effective_resolveIn, keeps, if_neg hne, hw, if_neg (by decide)]
  cases hr : Name.isReserved (Name.short w) with
  | false => simp
  | true =>
    -- A reserved word has no backslash, and what the name stood for has one.
    rw [if_pos rfl, Bool.not_true, Bool.false_and, Bool.eq_false_iff]
    intro he
    exact Name.notMem_of_isReserved (Name.isWord_short h hn) hr
      (backslash_mem_of_eqIgnoreCase he (backslash_mem_resolve h hn s))

/-- Whatever was done to the name, it stands for the same class exactly if it keeps its meaning. -/
theorem keeps_shorten {w : Text} (h : TypeExpr.isName w) (s later : NameScope)
    {r : TypeRef} (hr : ((TypeRef.ofWritten w).resolveIn (some s)).IsShortened r) :
    eqIgnoreCase ((TypeRef.ofWritten w).resolveIn (some s)).effective
        ((TypeRef.ofWritten r.written).resolveIn (some later)).effective =
      s.keeps later w r.written := by
  rw [TypeRef.IsShortened, TypeRef.written_resolveIn, TypeRef.written_ofWritten] at hr
  rcases hr with rfl | ⟨rfl, hn⟩
  · rw [TypeRef.written_resolveIn, TypeRef.written_ofWritten]
    exact keeps_self s later w
  · dsimp only
    by_cases hne : Name.short w = w
    · rw [hne]
      exact keeps_self s later w
    · exact keeps_short h hn hne s later

end NameScope
end DocTypes
