import DocTypes.Proofs.Doc.VarInfo
import DocTypes.Proofs.Import.Names
import DocTypes.Proofs.Inference.Aliases

/-!
What `@var` stands for after the class that a parameter declares was written there. It is the declared
class, unless the declaration is by an alias and the comment lists the class of that very name: that
class is taken for the alias, and stays.
-/
namespace DocTypes
open Text TypeExpr Name

namespace Name

/-- A name of the type syntax has at most one backslash in front. -/
lemma eq_unrooted_or_of_isName {w : Text} (h : isName w) :
    w = unrooted w ∨ w = '\\' :: unrooted w := by
  rcases isName_cases h with rfl | ⟨r, rfl, hr⟩ | hr
  · exact .inl rfl
  · right
    rw [unrooted_backslash, unrooted_of_isSpelled hr]
  · exact .inl (unrooted_of_isSpelled hr).symm

end Name

namespace TypeName

/-- A class is written with one backslash in front, however its full name begins. -/
lemma isListed_class {r : Text} (h : isName (rooted r)) : (plain ('\\' :: r)).IsListed := by
  have hroot := rooted_backslash r
  have hmarks : ∀ c, continuesName c = false → c ∉ ("$this" : Text) → c ∉ '\\' :: r := by
    intro c hc hthis hmem
    have hb : c ≠ '\\' := by
      rintro rfl
      exact absurd hc (by decide +kernel)
    refine notMem_of_isName hc hthis h ?_
    rw [← hroot]
    exact List.mem_cons_of_mem _ (mem_unrooted hb hmem)
  have hbare : withoutBrackets ('\\' :: r) = '\\' :: r := by
    have := withoutBrackets_append (hmarks ']' (by decide +kernel) (by decide)) 0
    rwa [brackets, List.append_nil] at this
  have hpart : absolutePart ('\\' :: r) = rooted r := by
    rw [absolutePart, isReserved_rooted, if_neg (by decide), hroot]
  have hcore : (plain ('\\' :: r)).core = rooted r := by
    simp only [core, plain, Bool.false_eq_true, if_false, hbare, hpart]
  have hdepth : (plain ('\\' :: r)).depth = 0 := by
    simp only [depth, plain, Bool.false_eq_true, if_false, hbare, Nat.sub_self, Nat.zero_div]
  have htag : (plain ('\\' :: r)).inTag = rooted r := by
    have hmark : partMark ('\\' :: r) = '|' := by
      have := hmarks '&' (by decide +kernel) (by decide)
      simp [partMark, this]
    simp only [inTag, plain, Bool.false_eq_true, if_false, hmark, List.map_singleton, hpart,
      splitOn_of_notMem (hmarks '|' (by decide +kernel) (by decide))]
    simp [join]
  refine ⟨hcore ▸ h, by rw [htag, hcore, hdepth, brackets, List.append_nil], ?_, fun scope _ => ?_⟩
  · rw [htag, ← hroot, unrooted_rooted]
    rfl
  · rw [hcore, hdepth, brackets, List.append_nil, ← hroot, rooted, full_resolveIn_rooted,
      unrooted_unrooted, unrooted_unrooted]
    rfl

end TypeName

namespace NameScope

variable {scope : NameScope} {n : Text}

/-- A declaration by an alias has no backslash in front, and its class another name. -/
lemma unrooted_of_isAliased (hn : isName n) (h : Strategy.isAliased (scope.resolve n) n) :
    unrooted n = n ∧ unrooted (scope.resolve n) ≠ n := by
  obtain ⟨hne, hends⟩ := Strategy.isAliased_iff.mp h
  have hroot : unrooted n = n := by
    rcases eq_unrooted_or_of_isName hn with h | h
    · exact h.symm
    · -- A rooted name stands for what follows the backslash.
      have hself : scope.resolve n = unrooted n := by
        rw [h]
        exact ((unrooted_backslash _).trans (unrooted_unrooted n)).symm
      exact absurd hself.symm hne
  refine ⟨hroot, fun heq => ?_⟩
  rw [hroot] at hne hends
  -- Only backslashes stand in front of what is left of the full name.
  have hsplit := List.takeWhile_append_dropWhile (p := (· == '\\')) (l := scope.resolve n)
  rw [show List.dropWhile (· == '\\') (scope.resolve n) = n from heq] at hsplit
  rcases List.eq_nil_or_concat' ((scope.resolve n).takeWhile (· == '\\')) with hnil | ⟨q, c, hq⟩
  · rw [hnil, List.nil_append] at hsplit
    exact hne hsplit
  · obtain rfl : c = '\\' := by
      have := List.mem_takeWhile_imp (hq ▸ List.mem_concat_self : c ∈ _)
      simpa using this
    exact hends ⟨q, by rw [← hsplit, hq]; simp⟩

end NameScope

namespace DocSlot

variable {s : DocSlot} {types : TypeSet}

/-- The full types after types were set: those of before if they count as listed. -/
lemma full_changeVar (hs : s.IsTidy) (h : ∀ n ∈ types.toList, n.IsListed)
    (hne : types.isEmpty = false) :
    (s.changeVar types).1.varInfo?.map (·.full) =
      if s.listsVarTypes types then s.varInfo?.map (·.full)
      else some (types.toList.map fun n =>
        ((TypeRef.ofWritten n.core).resolveIn s.scope).full ++ brackets n.depth) := by
  rw [changeVar, hne, Bool.false_or]
  split
  · rfl
  · rw [varInfo?_setTag hs h (toList_ne_nil hne)]
    rfl

variable {scope : NameScope} {n : Text}

lemma isEmpty_of_singleton {n : TypeName} (h : types.toList = [n]) : types.isEmpty = false := by
  rw [OrderedSet.isEmpty, h]
  rfl

/-- A class that was set by its full name is what the comment stands for. -/
lemma full_changeVar_class (hs : s.IsTidy) {r : Text} (hr : isName (rooted r))
    (htypes : types.toList = [.plain ('\\' :: r)]) :
    (s.changeVar types).1.varInfo?.map (·.full) = some [unrooted r] := by
  have hlisted : ∀ m ∈ types.toList, m.IsListed := by
    rw [htypes, List.forall_mem_singleton]
    exact TypeName.isListed_class hr
  have halias : ∀ m ∈ types.toList, m.isAlias = false := by
    rw [htypes, List.forall_mem_singleton]
    rfl
  obtain ⟨i, hi, hperm⟩ := exists_full_changeVar hs hlisted halias (isEmpty_of_singleton htypes)
  rw [htypes, List.map_singleton, List.perm_singleton] at hperm
  rw [hi, Option.map_some, hperm]
  exact congrArg (fun f => some [f]) (unrooted_backslash r)

/-- What is compared with an alias: a name that is written like it counts as the alias. -/
lemma comparableTo_alias (htypes : types.toList = [.aliased n]) (written full : Text) :
    comparableTo types written full =
      if unrooted written = n then n else unrooted full := by
  rw [comparableTo, htypes, List.any_cons, List.any_nil, Bool.or_false]
  by_cases h : unrooted written = n
  · rw [if_pos h, ← h]
    exact if_pos (by simp [TypeName.aliased])
  · rw [if_neg h]
    exact if_neg (by simp [TypeName.aliased, Ne.symm h])

/-- An alternative of a type that was written counts as the alias only if it stands for the class of
that name, or for what the alias stands for. -/
lemma full_of_comparableTo_alias (hn : isName n) (hres : isReserved n = false)
    (hroot : unrooted n = n) (htypes : types.toList = [.aliased n]) {u : TypeExpr Text}
    (hu : u.IsWritten) {part : Option (TypeExpr Text)} (hpart : part ∈ u.parts)
    {full : Text} (hfull : full = (part.elim (.name "null") (·.map fun w =>
      ((TypeRef.ofWritten w).resolveIn (some scope)).full)).render)
    (h : comparableTo types (part.elim (.name "null") (·.map fun w => w)).render full = n) :
    full = n ∨ full = unrooted (scope.resolve n) := by
  cases part with
  | none =>
    -- Null is no class.
    obtain rfl : "null" = n := by
      rw [comparableTo_alias htypes, hfull] at h
      exact (ite_eq_right_iff.mpr Eq.symm).symm.trans h
    exact absurd hres (by decide)
  | some v =>
    obtain ⟨hnames, hv⟩ := exists_mark_of_mem_parts (f := fun w => w)
      ((show u.map (fun w => w) = u from map_id u).symm ▸ hu.1) hpart
    rcases hv with ⟨w, rfl⟩ | ⟨c, hc, hmark⟩
    · have hw : isName w := hu.2 w (hnames (by simp [TypeExpr.names]))
      replace hfull : full = ((TypeRef.ofWritten w).resolveIn (some scope)).full := hfull
      replace h : (if unrooted w = n then n else unrooted full) = n :=
        (comparableTo_alias htypes w full).symm.trans h
      split at h
      · rename_i hwritten
        rcases eq_unrooted_or_of_isName hw with hw | hw
        · right
          rw [hfull, hw, hwritten, NameScope.full_resolveIn hres]
        · left
          rw [hfull, hw, TypeName.full_resolveIn_rooted, hwritten, hroot]
      · left
        rwa [hfull, TypeRef.full, unrooted_unrooted, ← TypeRef.full, ← hfull] at h
    · -- Neither does an alternative that is more than a name.
      have halias : ∀ m ∈ types.toList, m.isAlias → isName m.text := by
        rw [htypes]
        simpa [TypeName.aliased]
      replace h : comparableTo types (v.map fun w => w).render full = n := h
      rw [comparableTo_of_mark halias hc (hmark _)] at h
      refine absurd ?_ (notMem_of_mark hc hn)
      rw [← h, hfull]
      refine mem_unrooted ?_ (hmark _)
      rintro rfl
      exact absurd hc (by decide)

/-- An alias counts as listed where the comment lists the class of that name, rooted or imported, and
else only where it lists what the alias stands for. -/
lemma listsVarTypes_alias (hs : s.IsTidy) (hscope : s.scope = some scope) (hn : isName n)
    (hres : isReserved n = false) (hroot : unrooted n = n) (htypes : types.toList = [.aliased n]) :
    (s.listsVarTypes types → s.varInfo?.map (·.full) = some [n] ∨
      s.varInfo?.map (·.full) = some [unrooted (scope.resolve n)]) ∧
    (s.varInfo?.map (·.full) = some [n] → s.listsVarTypes types) := by
  rw [listsVarTypes, varInfo?_eq]
  cases hvar : s.varType? with
  | none => simp
  | some t =>
    obtain ⟨u, hu, rfl⟩ := exists_written_of_varType? hs hvar
    rw [hscope]
    have hfull : (TypeInfo.ofValue (.ofType (u.map fun w =>
        (TypeRef.ofWritten w).resolveIn (some scope)))).full = u.parts.map fun part =>
          (part.elim (.name "null") (·.map fun w =>
            ((TypeRef.ofWritten w).resolveIn (some scope)).full)).render := by
      rw [TypeInfo.ofValue, TypedValue.ofType, TypeExpr.full, TypeExpr.map_map, alternatives_map,
        List.map_map]
      rfl
    simp only [Option.map_some, Option.some.injEq, hfull, comparable_map, htypes,
      List.map_singleton, TypeRef.written_resolveIn, TypeRef.written_ofWritten, List.isPerm_iff,
      List.perm_singleton, List.map_eq_singleton_iff, TypeName.aliased, hroot]
    constructor
    · rintro ⟨part, hparts, h⟩
      have hpart : part ∈ u.parts := by simp [hparts]
      rcases full_of_comparableTo_alias hn hres hroot htypes hu hpart rfl h with hf | hf
      · exact .inl ⟨part, hparts, hf⟩
      · exact .inr ⟨part, hparts, hf⟩
    · rintro ⟨part, hparts, h⟩
      refine ⟨part, hparts, ?_⟩
      rw [comparableTo_alias htypes, h, hroot, ite_self]

/-- The comment stands for the declared class after it was set, unless the declaration is by an alias
and the comment had the class that is called like the alias. -/
theorem full_changeVar_declared_iff (hs : s.IsTidy) (hscope : s.scope = some scope)
    (hn : isName n) (hres : isReserved n = false)
    (hr : Strategy.isAliased (scope.resolve n) n = false → isName (rooted (scope.resolve n))) :
    (s.changeVar (Strategy.hintTypeSet (.named (scope.resolve n) n))).1.varInfo?.map (·.full) =
        some [unrooted (scope.resolve n)] ↔
      ¬ (Strategy.isAliased (scope.resolve n) n ∧ s.varInfo?.map (·.full) = some [n]) := by
  cases ha : Strategy.isAliased (scope.resolve n) n with
  | false =>
    have htypes : (Strategy.hintTypeSet (.named (scope.resolve n) n)).toList =
        [.plain ('\\' :: scope.resolve n)] := by
      rw [Strategy.hintTypeSet, Strategy.hintNames, ha]
      rfl
    generalize Strategy.hintTypeSet _ = types at htypes ⊢
    exact iff_of_true (full_changeVar_class hs (hr ha) htypes) (by simp)
  | true =>
    obtain ⟨hroot, hother⟩ := NameScope.unrooted_of_isAliased hn ha
    have htypes : (Strategy.hintTypeSet (.named (scope.resolve n) n)).toList = [.aliased n] := by
      rw [Strategy.hintTypeSet, Strategy.hintNames, ha]
      rfl
    generalize Strategy.hintTypeSet _ = types at htypes ⊢
    have hlisted : ∀ m ∈ types.toList, m.IsListed := by
      rw [htypes, List.forall_mem_singleton]
      exact TypeName.isListed_of_alias hn rfl
    obtain ⟨hold, hsame⟩ := listsVarTypes_alias hs hscope hn hres hroot htypes
    have hset := full_changeVar hs hlisted (isEmpty_of_singleton htypes)
    simp only [true_and]
    by_cases hl : s.listsVarTypes types
    · rw [hset, if_pos hl]
      rcases hold hl with h | h <;> simp [h, hother, Ne.symm hother]
    · have hfull : ((TypeRef.ofWritten (TypeName.aliased n).core).resolveIn s.scope).full ++
          brackets (TypeName.aliased n).depth = unrooted (scope.resolve n) := by
        rw [hscope]
        exact (List.append_nil _).trans (NameScope.full_resolveIn hres scope)
      rw [hset, if_neg hl, htypes, List.map_singleton, hfull]
      exact iff_of_true rfl fun h => hl (hsame h)

/-- Two imports: one by another name, which is how the parameter declares the class, and one that a
comment of another class uses. -/
theorem full_changeVar_declared_imported :
    let scope : NameScope := ⟨none, some "App", .ofList [("C", "A\\B"), ("D", "Vendor\\C")]⟩
    let s : DocSlot := ⟨some "/** @var D $c note */", some scope⟩
    s.IsTidy ∧ isName "C" ∧ isReserved "C" = false ∧
      Strategy.isAliased (scope.resolve "C") "C" ∧
      s.varInfo?.map (·.full) = some [("Vendor\\C" : Text)] ∧
      (s.changeVar (Strategy.hintTypeSet (.named (scope.resolve "C") "C"))).1.text =
        some "/** @var C */".toList ∧
      (s.changeVar (Strategy.hintTypeSet (.named (scope.resolve "C") "C"))).1.varInfo?.map (·.full) =
        some [("A\\B" : Text)] := by
  intro scope s
  have htidy : s.IsTidy := by decide +kernel
  have hname : isName "C" := by decide +kernel
  have hres : isReserved "C" = false := by decide +kernel
  have halias : Strategy.isAliased (scope.resolve "C") "C" := by decide +kernel
  have hold : s.varInfo?.map (·.full) = some [("Vendor\\C" : Text)] := by decide +kernel
  have hscope : s.scope = some scope := rfl
  have hiff := full_changeVar_declared_iff htidy hscope hname hres fun h =>
    absurd (h.symm.trans halias) (by decide)
  refine ⟨htidy, hname, hres, halias, hold, by decide +kernel, hiff.mpr fun h => ?_⟩
  rw [hold] at h
  exact absurd h.2 (by decide)

/-- The global class that is called like the alias counts as the alias, imported or rooted, and
stays. -/
theorem full_changeVar_declared_global :
    let scope : NameScope := ⟨some "a.php", some "App", .ofList [("C", "A\\B"), ("X", "C")]⟩
    isName "C" ∧ isReserved "C" = false ∧ scope.resolve "C" = ("A\\B" : Text) ∧
      ∀ doc ∈ [("/** @var X */" : Text), "/** @var \\C */"],
        let s : DocSlot := ⟨some doc, some scope⟩
        s.IsTidy ∧ s.changeVar (Strategy.hintTypeSet (.named (scope.resolve "C") "C")) = (s, false) ∧
          s.varInfo?.map (·.full) = some [("C" : Text)] := by
  intro scope
  refine ⟨by decide +kernel, by decide +kernel, by decide +kernel, fun doc hdoc => ?_⟩
  intro s
  simp only [List.mem_cons, List.not_mem_nil, or_false] at hdoc
  rcases hdoc with rfl | rfl <;>
    exact ⟨by decide +kernel, by decide +kernel, by decide +kernel⟩

end DocSlot
end DocTypes
