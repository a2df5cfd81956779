import DocTypes.Doc.TypeEdit
import DocTypes.Proofs.Text.Lines
import DocTypes.Proofs.TypeExpr.RoundTrip

/-!
The types that a tag lists. A set of names that the type syntax knows is written as a type with one
alternative for each name, and each alternative stands for the name it was written for.
-/
namespace DocTypes
open Text

/-! Names. -/

namespace Name

lemma unrooted_append_of_mem {c : Char} {s : Text} (hc : c ∈ s) (hb : c ≠ '\\') (t : Text) :
    unrooted (s ++ t) = unrooted s ++ t := by
  induction s with
  | nil => simp at hc
  | cons d s ih =>
    by_cases hd : d = '\\'
    · subst hd
      have hs : c ∈ s := (List.mem_cons.mp hc).resolve_left hb
      simpa [unrooted] using ih hs
    · simp [unrooted, hd]

@[simp] lemma unrooted_unrooted (s : Text) : unrooted (unrooted s) = unrooted s :=
  List.dropWhile_idempotent _ _

lemma unrooted_backslash (s : Text) : unrooted ('\\' :: s) = unrooted s :=
  List.dropWhile_cons_of_pos (by simp)

@[simp] lemma unrooted_rooted (s : Text) : unrooted (rooted s) = unrooted s := by
  rw [rooted, unrooted_backslash, unrooted_unrooted]

lemma rooted_backslash (s : Text) : rooted ('\\' :: s) = rooted s := by
  rw [rooted, unrooted_backslash, rooted]

end Name

namespace TypeExpr

/-! Arrays of arrays. -/

def brackets : Nat → Text
  | 0 => []
  | k + 1 => brackets k ++ "[]"

lemma mem_brackets {c : Char} {k : Nat} (h : c ∈ brackets k) : c = '[' ∨ c = ']' := by
  induction k with
  | zero => exact absurd h List.not_mem_nil
  | succ k ih =>
    rw [brackets, List.mem_append] at h
    exact h.elim ih (by simp)

lemma notMem_brackets {c : Char} (hl : c ≠ '[') (hr : c ≠ ']') (k : Nat) : c ∉ brackets k :=
  fun h => (mem_brackets h).elim hl hr

/-- The type with `[]` behind it so many times. -/
def arrayed {ν : Type} (t : TypeExpr ν) : Nat → TypeExpr ν
  | 0 => t
  | k + 1 => .array (arrayed t k)

section
variable {ν μ : Type} (n : ν) (k : Nat)

@[simp] lemma isLoose_arrayed_name : ((name n).arrayed k).isLoose = false := by
  cases k <;> rfl

@[simp] lemma isCompound_arrayed_name : ((name n).arrayed k).isCompound = false := by
  cases k <;> rfl

@[simp] lemma map_arrayed (f : ν → μ) (t : TypeExpr ν) :
    (t.arrayed k).map f = (t.map f).arrayed k := by
  induction k with
  | zero => rfl
  | succ k ih => rw [arrayed, map, ih, arrayed]

@[simp] lemma names_arrayed (t : TypeExpr ν) : (t.arrayed k).names = t.names := by
  induction k with
  | zero => rfl
  | succ k ih => rw [arrayed, names, ih]

end

section
variable (w : Text) (k : Nat)

@[simp] lemma render_arrayed_name : ((name w).arrayed k).render = w ++ brackets k := by
  induction k with
  | zero => simp [arrayed, render, brackets]
  | succ k ih => rw [arrayed, render, isLoose_arrayed_name, parenthesizedIf, ih, brackets]; simp

@[simp] lemma alternatives_arrayed_name :
    ((name w).arrayed k).alternatives = [(name w).arrayed k] := by
  cases k <;> rfl

@[simp] lemma isProper_arrayed_name : ((name w).arrayed k).isProper = true := by
  induction k with
  | zero => rfl
  | succ k ih => exact ih

@[simp] lemma isReadable_arrayed_name : ((name w).arrayed k).isReadable = isName w := by
  induction k with
  | zero => rfl
  | succ k ih => exact ih

@[simp] lemma isGrouped_arrayed_name : ((name w).arrayed k).isGrouped = true := by
  induction k with
  | zero => rfl
  | succ k ih => exact ih

end

end TypeExpr

namespace Name
open TypeExpr

lemma dropBracketsRev_brackets (k : Nat) (s : Text) :
    dropBracketsRev ((brackets k).reverse ++ s) = dropBracketsRev s := by
  induction k with
  | zero => rfl
  | succ k ih =>
    rw [brackets, List.reverse_append]
    exact (dropBracketsRev.eq_1 _).trans ih

lemma withoutBrackets_append {w : Text} (h : ']' ∉ w) (k : Nat) :
    withoutBrackets (w ++ brackets k) = w := by
  have hw : dropBracketsRev w.reverse = w.reverse := by
    rw [dropBracketsRev]
    intro r hr
    exact h (List.mem_reverse.mp (by rw [hr]; simp))
  rw [withoutBrackets, List.reverse_append, dropBracketsRev_brackets, hw, List.reverse_reverse]

/-- Nothing but brackets is dropped. -/
lemma exists_brackets_dropBracketsRev (s : Text) :
    ∃ k, s = (brackets k).reverse ++ dropBracketsRev s := by
  fun_induction dropBracketsRev s with
  | case1 r ih =>
    obtain ⟨k, hk⟩ := ih
    refine ⟨k + 1, ?_⟩
    rw [brackets, List.reverse_append, List.append_assoc, ← hk]
    rfl
  | case2 r _ => exact ⟨0, rfl⟩

lemma exists_withoutBrackets_append (s : Text) : ∃ k, s = withoutBrackets s ++ brackets k := by
  obtain ⟨k, hk⟩ := exists_brackets_dropBracketsRev s.reverse
  refine ⟨k, ?_⟩
  rw [withoutBrackets, ← List.reverse_reverse (brackets k), ← List.reverse_append, ← hk,
    List.reverse_reverse]

/-- A rooted name is never one of the reserved words. -/
lemma isReserved_rooted (s : Text) : isReserved ('\\' :: s) = false := by
  have hsolid : Solid ['\\'] := .singleton (by decide)
  have htrim : trim ('\\' :: s) = '\\' :: trimEnd s := hsolid.trim_append s
  obtain ⟨k, hk⟩ := exists_withoutBrackets_append ('\\' :: trimEnd s)
  have hwords : ∀ w ∈ reservedWords, w ≠ [] ∧ w.head? ≠ some '\\' := by decide
  rw [isReserved, htrim, Bool.eq_false_iff]
  intro hc
  have hw := hwords _ (by simpa using hc)
  cases h : withoutBrackets ('\\' :: trimEnd s) with
  | nil =>
    rw [h] at hw
    exact hw.1 rfl
  | cons c w =>
    rw [h] at hk hw
    obtain rfl : '\\' = c := (List.cons.inj hk).1
    exact hw.2 rfl

lemma trim_append_brackets {w : Text} (h : Solid w) (k : Nat) :
    trim (w ++ brackets k) = w ++ brackets k := by
  have hk : ∀ k, trimEnd (w ++ brackets k) = w ++ brackets k := by
    intro k
    cases k with
    | zero =>
      rw [brackets, List.append_nil]
      exact h.trimEnd_eq
    | succ k =>
      have hb : Solid "[]" := ⟨⟨'[', [']'], rfl, by decide⟩, ['['], ']', rfl, by decide⟩
      rw [brackets, ← List.append_assoc]
      exact hb.trimEnd_append _
  rw [trim, h.trimStart_append, hk k]

lemma isName_of_mem_reservedWords : ∀ w ∈ reservedWords, isName w := by decide +kernel

/-- Brackets behind a name do not make it a class. -/
lemma isReserved_append_brackets {w : Text} (h : isWord w) (k : Nat) :
    isReserved (w ++ brackets k) = reservedWords.contains (lower w) := by
  have hb : ']' ∉ w := notMem_of_isWord (by decide) (by decide) h
  rw [isReserved, trim_append_brackets (solid_of_isWord h), withoutBrackets_append hb]

lemma isReserved_of_isWord {w : Text} (h : isWord w) :
    isReserved w = reservedWords.contains (lower w) := by
  have := isReserved_append_brackets h 0
  rwa [brackets, List.append_nil] at this

lemma unrooted_of_isSpelled {s : Text} (h : isSpelled s) : unrooted s = s := by
  cases s with
  | nil => rfl
  | cons c s =>
    have hc := (startsName_ne (isSpelled_cons.mp h).1).2.1
    exact List.dropWhile_cons_of_neg (by simp [hc])

lemma unrooted_append {w : Text} (h : isName w) (t : Text) :
    unrooted (w ++ t) = unrooted w ++ t := by
  have hspelled : ∀ s, isSpelled s → ∃ c ∈ s, c ≠ '\\' := by
    intro s hs
    cases s with
    | nil => simp [isSpelled] at hs
    | cons c s => exact ⟨c, by simp, (startsName_ne (isSpelled_cons.mp hs).1).2.1⟩
  obtain ⟨c, hc, hne⟩ : ∃ c ∈ w, c ≠ '\\' := by
    rcases isName_cases h with rfl | ⟨s, rfl, hs⟩ | hs
    · exact ⟨'$', by decide, by decide⟩
    · obtain ⟨c, hc, hne⟩ := hspelled s hs
      exact ⟨c, by simp [hc], hne⟩
    · exact hspelled w hs
  exact unrooted_append_of_mem hc hne t

/-- A class name, rooted, is a name still. -/
lemma isName_rooted {w : Text} (h : isName w) (hr : reservedWords.contains (lower w) = false) :
    isName (rooted w) := by
  rcases isName_cases h with rfl | ⟨s, rfl, hs⟩ | hs
  · exact absurd hr (by decide)
  · have : rooted ('\\' :: s) = '\\' :: s := congrArg ('\\' :: ·)
      ((unrooted_backslash s).trans (unrooted_of_isSpelled hs))
    rw [this]
    exact h
  · rw [rooted, unrooted_of_isSpelled hs]
    simp [isName, hs]

end Name

/-! Names of a set. -/

namespace TypeName
open TypeExpr Name

/-- A name that the type syntax knows, with any number of `[]` behind it unless it is an alias. A
reserved word is one as it is spelled in the list: in other letters it has to be a name like any other,
though looking it up takes it for reserved. So `$this` and `INT` can be listed and `$THIS` cannot. -/
def IsListable (n : TypeName) : Prop :=
  if n.isAlias then isName n.text = true
  else ∃ w k, n.text = w ++ brackets k ∧ (w ∈ reservedWords ∨ isName w)

lemma isListable_iff {n : TypeName} : n.IsListable ↔
    if n.isAlias then isName n.text = true
    else reservedWords.contains (withoutBrackets n.text) ∨ isName (withoutBrackets n.text) := by
  rw [IsListable, List.contains_iff_mem]
  split
  · rfl
  · constructor
    · rintro ⟨w, k, htext, hw⟩
      have hname : isName w := hw.elim (isName_of_mem_reservedWords w) id
      rwa [htext, withoutBrackets_append (notMem_of_isName (by decide) (by decide) hname)]
    · intro hw
      obtain ⟨k, hk⟩ := exists_withoutBrackets_append n.text
      exact ⟨_, k, hk, hw⟩

instance : DecidablePred IsListable := fun _ => decidable_of_iff' _ isListable_iff

/-- The name without its brackets, as it is written. -/
def core (n : TypeName) : Text :=
  if n.isAlias then n.text else absolutePart (withoutBrackets n.text)

/-- How many pairs of brackets follow the name. -/
def depth (n : TypeName) : Nat :=
  if n.isAlias then 0 else (n.text.length - (withoutBrackets n.text).length) / 2

/-- The type that is written for the name. -/
def asType (n : TypeName) : TypeExpr Text := (name n.core).arrayed n.depth

/-- What is written for a name, and what that stands for. -/
structure IsListed (n : TypeName) : Prop where
  isName : isName n.core
  inTag : n.inTag = n.core ++ brackets n.depth
  unrooted_inTag : unrooted n.inTag = unrooted n.text
  full : ∀ scope, (n.isAlias → n.text ≠ unrooted n.text) →
    unrooted (((TypeRef.ofWritten n.core).resolveIn scope).full ++ brackets n.depth) =
      unrooted n.text

lemma full_resolveIn_rooted (s : Text) (scope : Option NameScope) :
    ((TypeRef.ofWritten ('\\' :: s)).resolveIn scope).full = unrooted s := by
  unfold TypeRef.resolveIn
  rw [TypeRef.written_ofWritten, isReserved_rooted, if_neg (by decide)]
  cases scope with
  | none => exact (unrooted_unrooted _).trans (unrooted_backslash s)
  | some scope => rfl

lemma isListed_of_alias {n : TypeName} (h : isName n.text) (ha : n.isAlias) : n.IsListed := by
  have hcore : n.core = n.text := if_pos ha
  have hdepth : n.depth = 0 := if_pos ha
  have htag : n.inTag = n.text := if_pos ha
  refine ⟨hcore ▸ h, by rw [htag, hcore, hdepth, brackets, List.append_nil], by rw [htag],
    fun scope hne => ?_⟩
  rw [hcore, hdepth, brackets, List.append_nil]
  cases ht : n.text with
  | nil =>
    rw [ht] at h
    exact absurd h (by decide)
  | cons c s =>
    have hc : c = '\\' := by
      by_contra hc
      refine hne ha ?_
      rw [ht]
      exact (List.dropWhile_cons_of_neg (by simp [hc])).symm
    subst hc
    rw [full_resolveIn_rooted, unrooted_unrooted]
    exact (unrooted_backslash s).symm

lemma depth_of_append {n : TypeName} {w : Text} {k : Nat} (ha : n.isAlias = false)
    (ht : n.text = w ++ brackets k) (hw : isName w) :
    withoutBrackets n.text = w ∧ n.depth = k := by
  have hlen : ∀ k, (brackets k).length = 2 * k := by
    intro k
    induction k with
    | zero => rfl
    | succ k ih =>
      rw [brackets, List.length_append, ih]
      exact (Nat.mul_succ 2 k).symm
  have hb : ']' ∉ w := notMem_of_isName (by decide) (by decide) hw
  have hcore : withoutBrackets n.text = w := by rw [ht, withoutBrackets_append hb]
  refine ⟨hcore, ?_⟩
  rw [depth, ha, if_neg (by decide), hcore, ht, List.length_append, hlen]
  omega

/-- A text without the marks of unions and intersections is one part. -/
lemma inTag_of_append {n : TypeName} {w : Text} {k : Nat} (ha : n.isAlias = false)
    (ht : n.text = w ++ brackets k) (hw : isName w) : n.inTag = absolutePart n.text := by
  have hbar : '|' ∉ n.text := by
    have := notMem_of_isName (c := '|') (by decide) (by decide) hw
    simp [ht, this, notMem_brackets (c := '|') (by decide) (by decide) k]
  have hand : '&' ∉ n.text := by
    have := notMem_of_isName (c := '&') (by decide) (by decide) hw
    simp [ht, this, notMem_brackets (c := '&') (by decide) (by decide) k]
  have hmark : partMark n.text = '|' := by simp [partMark, hand]
  rw [inTag, ha, if_neg (by decide), hmark, splitOn_of_notMem hbar]
  simp [join]

lemma isListed_of_name {n : TypeName} {w : Text} {k : Nat} (ha : n.isAlias = false)
    (ht : n.text = w ++ brackets k) (hw : isName w) : n.IsListed := by
  obtain ⟨hbare, hdepth⟩ := depth_of_append ha ht hw
  have htag := inTag_of_append ha ht hw
  have hcore : n.core = absolutePart w := by rw [core, ha, if_neg (by decide), hbare]
  have hword : isWord w := isWord_of_isName hw
  have hres := isReserved_append_brackets hword k
  have hres₀ := isReserved_of_isWord hword
  rw [← ht] at hres
  cases hr : reservedWords.contains (lower w) with
  | true =>
    rw [hr] at hres hres₀
    rw [absolutePart, hres₀, if_pos rfl] at hcore
    rw [absolutePart, hres, if_pos rfl] at htag
    refine ⟨hcore ▸ hw, by rw [htag, hcore, hdepth, ht], by rw [htag], fun scope _ => ?_⟩
    have hfull : ((TypeRef.ofWritten w).resolveIn scope).full = unrooted w := by
      unfold TypeRef.resolveIn
      rw [TypeRef.written_ofWritten, hres₀, if_pos rfl]
      rfl
    rw [hcore, hfull, hdepth, ht, ← unrooted_append hw, unrooted_unrooted]
  | false =>
    rw [hr] at hres hres₀
    rw [absolutePart, hres₀, if_neg (by decide)] at hcore
    rw [absolutePart, hres, if_neg (by decide)] at htag
    have hname := isName_rooted hw hr
    have hun := unrooted_append hw (brackets k)
    refine ⟨hcore ▸ hname, ?_, by rw [htag, unrooted_rooted], fun scope _ => ?_⟩
    · rw [htag, hcore, hdepth, ht, rooted, hun, rooted, List.cons_append]
    · rw [hcore, rooted, full_resolveIn_rooted, unrooted_unrooted, hdepth, ht, ← hun,
        unrooted_unrooted]

/-- Every name that can be listed is written as a type that stands for it. -/
theorem isListed {n : TypeName} (h : n.IsListable) : n.IsListed := by
  rw [IsListable] at h
  cases ha : n.isAlias with
  | true =>
    rw [ha, if_pos rfl] at h
    exact isListed_of_alias h ha
  | false =>
    rw [ha, if_neg (by decide)] at h
    obtain ⟨w, k, ht, hw⟩ := h
    exact isListed_of_name ha ht (hw.elim (isName_of_mem_reservedWords w) id)

end TypeName

/-! Types side by side. -/

namespace TypeExpr

/-- Types as the alternatives of one type. -/
def joined {ν : Type} : List (TypeExpr ν) → TypeExpr ν
  | [t] => t
  | ts => .union ts

lemma joined_of_two_le {ν : Type} {ts : List (TypeExpr ν)} (h : 2 ≤ ts.length) :
    joined ts = .union ts := by
  unfold joined
  split
  · simp at h
  · rfl

lemma map_joined {ν μ : Type} (f : ν → μ) (ts : List (TypeExpr ν)) :
    (joined ts).map f = joined (ts.map (·.map f)) := by
  match ts with
  | [] => rfl
  | [t] => rfl
  | t :: u :: ts => exact congrArg union (mapList_eq f _)

lemma alternatives_joined {ts : List (TypeExpr Text)} (h : ∀ t ∈ ts, t.alternatives = [t]) :
    (joined ts).alternatives = ts := by
  match ts with
  | [] => rfl
  | [t] => exact h t (by simp)
  | t :: u :: ts =>
    rw [joined_of_two_le (by simp), alternatives, alternativesList_eq, List.flatMap_congr h,
      List.flatMap_singleton']

/-- What stands between the marks of a union without parentheses: a name, and arrays of it. -/
def IsPlain (t : TypeExpr Text) : Prop := ∃ w k, t = (name w).arrayed k ∧ isName w

lemma render_joined {ts : List (TypeExpr Text)} (h : ∀ t ∈ ts, t.IsPlain) :
    (joined ts).render = join "|" (ts.map render) := by
  have hmember : ∀ t ∈ ts, parenthesizedIf t.isCompound t.render = t.render := by
    intro t ht
    obtain ⟨w, k, rfl, -⟩ := h t ht
    rw [isCompound_arrayed_name]
    rfl
  match ts with
  | [] => rfl
  | [t] => simp [joined, join]
  | t :: u :: ts =>
    rw [joined_of_two_le (by simp), render, renderMembers_eq, List.map_congr_left hmember]

/-- Plain types side by side are a type that is read as itself when it is printed. -/
lemma isReadable_joined {ts : List (TypeExpr Text)} (h : ∀ t ∈ ts, t.IsPlain) (hne : ts ≠ []) :
    (joined ts).isProper ∧ (∀ n ∈ (joined ts).names, isName n) ∧ (joined ts).isReadable ∧
      (joined ts).isGrouped := by
  match ts, hne with
  | [t], _ =>
    obtain ⟨w, k, rfl, hw⟩ := h t (by simp)
    simpa [joined, names] using hw
  | t :: u :: ts, _ =>
    have hall : ∀ v ∈ t :: u :: ts, v.isProper ∧ (∀ n ∈ v.names, isName n) ∧ v.isReadable ∧
        v.isGrouped := by
      intro v hv
      obtain ⟨w, k, rfl, hw⟩ := h v hv
      simpa [names] using hw
    rw [joined_of_two_le (by simp)]
    refine ⟨isProper_union.mpr ⟨by simp, fun v hv => (hall v hv).1⟩, ?_, ?_, ?_⟩
    · simp only [names, namesList_eq, List.mem_flatMap]
      rintro n ⟨v, hv, hn⟩
      exact (hall v hv).2.1 n hn
    · simp only [isReadable, allReadable_iff]
      exact fun v hv => (hall v hv).2.2.1
    · simp only [isGrouped, allGrouped_iff]
      exact fun v hv => (hall v hv).2.2.2

lemma read_join_render {ts : List (TypeExpr Text)} (h : ∀ t ∈ ts, t.IsPlain) (hne : ts ≠ []) :
    read (join "|" (ts.map render)) = .ok (joined ts) := by
  obtain ⟨hp, hn, hr, hg⟩ := isReadable_joined h hne
  have hread := read_render hp fun n hn' => isWord_of_isName (hn n hn')
  rw [if_pos hr, (regroup_eq_self_iff _ hp).mpr hg, render_joined h] at hread
  exact hread

lemma names_joined {ν : Type} (ts : List (TypeExpr ν)) :
    (joined ts).names = ts.flatMap names := by
  match ts with
  | [] => rfl
  | [t] => simp [joined]
  | t :: u :: ts => rw [joined_of_two_le (by simp), names, namesList_eq]

end TypeExpr

namespace TypeSet
open TypeExpr

variable {types types' : TypeSet}

/-- The type that lists the names of a set. -/
def asType (types : TypeSet) : TypeExpr Text := joined (types.toList.map TypeName.asType)

lemma names_asType (types : TypeSet) : types.asType.names = types.toList.map TypeName.core := by
  rw [asType, names_joined, List.flatMap_map, List.map_eq_flatMap]
  refine List.flatMap_congr fun n _ => ?_
  rw [TypeName.asType, names_arrayed, TypeExpr.names]

lemma isPlain_asType (h : ∀ n ∈ types.toList, n.IsListed) :
    ∀ t ∈ types.toList.map TypeName.asType, t.IsPlain := by
  intro t ht
  obtain ⟨n, hn, rfl⟩ := List.mem_map.mp ht
  exact ⟨_, _, rfl, (h n hn).isName⟩

lemma join_render_asType (h : ∀ n ∈ types.toList, n.IsListed) :
    join "|" ((types.toList.map TypeName.asType).map TypeExpr.render) = types.inTag := by
  rw [List.map_map, inTag]
  refine congrArg (join _) (List.map_congr_left fun n hn => ?_)
  exact (render_arrayed_name _ _).trans (h n hn).inTag.symm

lemma render_asType (h : ∀ n ∈ types.toList, n.IsListed) : types.asType.render = types.inTag := by
  rw [asType, render_joined (isPlain_asType h), join_render_asType h]

/-- What is listed holds nothing but what may stand in names, and the marks of lists. -/
lemma notMem_inTag_of_isListed {c : Char} (hc : continuesName c = false)
    (ht : c ∉ ("$this" : Text)) (hl : c ≠ '[') (hr : c ≠ ']') (hbar : c ≠ '|')
    (h : ∀ n ∈ types.toList, n.IsListed) : c ∉ types.inTag := by
  rw [inTag, mem_join_iff_of_notMem (by simpa using hbar)]
  rintro ⟨p, hp, hmem⟩
  obtain ⟨n, hn, rfl⟩ := List.mem_map.mp hp
  rw [(h n hn).inTag, List.mem_append] at hmem
  exact hmem.elim (notMem_of_isName hc ht (h n hn).isName) (notMem_brackets hl hr _)

lemma read_inTag (h : ∀ n ∈ types.toList, n.IsListed) (hne : types.toList ≠ []) :
    TypeExpr.read types.inTag = .ok types.asType := by
  rw [← join_render_asType h]
  exact read_join_render (isPlain_asType h) (by simpa using hne)

/-- The alternatives of the type, with whatever is known of the names. -/
lemma alternatives_map_asType (f : Text → Text) (types : TypeSet) :
    (types.asType.map f).alternatives.map TypeExpr.render =
      types.toList.map fun n => f n.core ++ brackets n.depth := by
  rw [asType, map_joined, List.map_map, alternatives_joined, List.map_map]
  · exact List.map_congr_left fun n _ => by simp [TypeName.asType, TypeExpr.map]
  · intro t ht
    obtain ⟨n, -, rfl⟩ := List.mem_map.mp ht
    simp [TypeName.asType, TypeExpr.map]

/-- Listed names compare equal to the names of the set, in their order. -/
lemma comparable_listed (h : ∀ n ∈ types.toList, n.IsListed)
    (hp : types'.toList.Perm types.toList) (scope : Option NameScope) :
    DocSlot.comparable types' ⟨types.toList.map TypeName.inTag, types.toList.map fun n =>
        ((TypeRef.ofWritten n.core).resolveIn scope).full ++ brackets n.depth⟩ =
      types.toList.map (Name.unrooted ·.text) := by
  rw [DocSlot.comparable, List.zip_map', List.map_map]
  refine List.map_congr_left fun n hn => ?_
  have hl := h n hn
  dsimp only [Function.comp_apply]
  split
  · exact hl.unrooted_inTag
  · rename_i hnone
    refine hl.full scope fun ha hu => hnone ?_
    rw [List.any_eq_true]
    exact ⟨n, hp.symm.subset hn, by simp [ha, hl.unrooted_inTag, ← hu]⟩

end TypeSet
end DocTypes
