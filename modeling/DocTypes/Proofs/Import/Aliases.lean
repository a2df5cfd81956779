import DocTypes.Proofs.Import.Pending
import DocTypes.Proofs.Inference.Aliases

/-!
Short names and aliases. A class that is written by an alias stands for what the alias imports, and its
full name does not end with the alias; so no name that was shortened reads like one.
-/
namespace DocTypes
open Text

namespace Text

/-- A text ends with what follows the last mark, and with the mark. -/
lemma afterLast_suffix {mark : Char} {s : Text} (h : mark ∈ s) : mark :: afterLast mark s <:+ s := by
  have hsplit := List.takeWhile_append_dropWhile (p := (· != mark)) (l := s.reverse)
  cases hrest : s.reverse.dropWhile (· != mark) with
  | nil =>
    rw [hrest, List.append_nil] at hsplit
    have := List.mem_takeWhile_imp (hsplit ▸ List.mem_reverse.mpr h)
    simp at this
  | cons c r =>
    have hc := List.head?_dropWhile_not (· != mark) s.reverse
    rw [hrest] at hc hsplit
    obtain rfl : c = mark := by simpa using hc
    exact ⟨r.reverse, by simpa [afterLast] using congrArg List.reverse hsplit⟩

end Text

namespace Name

@[simp] lemma unrooted_short (w : Text) : unrooted (short w) = short w := by
  unfold short
  split
  · exact unrooted_unrooted w
  · rename_i segment _
    generalize hs : afterLast '\\' (unrooted w) = segment at *
    cases segment with
    | nil => rfl
    | cons c r =>
      have hc : c ≠ '\\' := by
        rintro rfl
        exact notMem_afterLast '\\' (unrooted w) (hs ▸ List.mem_cons_self)
      exact List.dropWhile_cons_of_neg (by simpa using hc)

lemma suffix_unrooted {w : Text} (hn : isNamespaced w) (hs : isNamespaced (short w) = false) :
    '\\' :: short w <:+ unrooted w := by
  have hmem : '\\' ∈ unrooted w := by simpa [isNamespaced] using hn
  have hlast := afterLast_suffix hmem
  have hshort : short w = afterLast '\\' (unrooted w) := by
    unfold short at hs ⊢
    split
    · rename_i hnil
      rw [hnil, isNamespaced, unrooted_unrooted] at hs
      simp [hmem] at hs
    · rfl
  rwa [hshort]

end Name

namespace NameScope

/-- What a namespaced name stands for ends with the last segment of the name. -/
lemma suffix_resolve {w : Text} (hn : Name.isNamespaced w)
    (hs : Name.isNamespaced (Name.short w) = false) (s : NameScope) :
    '\\' :: Name.short w <:+ s.resolve w := by
  have hsuffix := Name.suffix_unrooted hn hs
  cases hw : startsWith "\\" w with
  | true =>
    obtain ⟨t, ht⟩ := startsWith_iff.mp hw
    obtain rfl : '\\' :: t = w := ht
    rw [Name.unrooted_backslash] at hsuffix
    exact hsuffix.trans (List.dropWhile_suffix _)
  | false =>
    rw [resolve_eq_head hw]
    refine List.IsSuffix.trans ?_ (List.suffix_append _ _)
    obtain ⟨r, hr⟩ := hsuffix.trans (List.dropWhile_suffix _)
    generalize Name.short w = segment at hr
    rw [← hr, List.dropWhile_append]
    split
    · exact ⟨[], (List.dropWhile_cons_of_neg (by simp)).symm⟩
    · exact List.suffix_append _ _

/-- A name of one segment stands for what the segment stands for. -/
lemma resolve_segment {a : Text} (h : '\\' ∉ a) (s : NameScope) : s.resolve a = s.head a := by
  have hall : ∀ c ∈ a, (c != '\\') = true := fun c hc => by
    simpa using fun heq : c = '\\' => h (heq ▸ hc)
  have hw : startsWith "\\" a = false := by
    rw [Bool.eq_false_iff]
    intro hs
    obtain ⟨t, rfl⟩ := startsWith_iff.mp hs
    exact h (by simp)
  rw [resolve_eq_head hw, List.takeWhile_eq_self_iff.mpr hall, List.dropWhile_eq_nil_iff.mpr hall,
    List.append_nil]

/-- A name that was shortened and stands for what it stood for before does not read like an alias
that a class is written by. -/
theorem unrooted_short_ne_alias {scope : NameScope} {p : PendingImports} (hfree : p.IsFree scope)
    {w a : Text} (hw : TypeExpr.isName w) (hn : Name.isNamespaced w)
    (hs : Name.isNamespaced (Name.short w) = false)
    (hmeaning : ((TypeRef.ofWritten w).resolveIn (some scope)).effective =
      ((TypeRef.ofWritten (Name.short w)).resolveIn (some (scope.withPending p))).effective)
    (ha : Name.isNamespaced a = false) (halias : Strategy.isAliased (scope.resolve a) a) :
    Name.unrooted (Name.short w) ≠ a := by
  rw [Name.unrooted_short]
  rintro rfl
  have hself := Name.unrooted_short w
  have hnone : '\\' ∉ Name.short w := by
    rw [← hself]
    simpa [Name.isNamespaced] using ha
  generalize hfull : scope.resolve (Name.short w) = full at halias
  obtain ⟨hother, hends⟩ := Strategy.isAliased_iff.mp halias
  rw [hself] at hother hends
  have hsuffix := suffix_resolve hn hs scope
  rw [effective_resolveIn, effective_resolveIn, Name.isReserved_of_isNamespaced hw hn,
    if_neg (by decide)] at hmeaning
  -- Neither what the alias imports nor a class at home has a full name of this end.
  rw [eq_comm, resolve_segment hnone, head] at hfull
  cases himport : scope.importedAs? (Name.short w) with
  | some x =>
    obtain rfl : full = x := by rw [hfull, himport, Option.getD_some]
    have hlater : (scope.withPending p).importedAs? (Name.short w) = some full := by
      rw [importedAs?_withPending hfree, PendingImports.holder?, himport, Option.some_or]
    split at hmeaning
    · exact hnone (hmeaning ▸ hsuffix.subset (by simp))
    · rw [resolve_segment hnone, head, hlater, Option.getD_some] at hmeaning
      exact hends (hmeaning ▸ hsuffix)
  | none =>
    rw [himport, Option.getD_none, atHome] at hfull
    cases hhome : scope.home with
    | some home =>
      rw [hhome] at hfull
      exact hends ⟨home, hfull.symm⟩
    | none =>
      rw [hhome] at hfull
      exact hother hfull.symm

end NameScope
end DocTypes
