import DocTypes.Proofs.Inference.Aliases
import DocTypes.Proofs.Inference.Evidence

/-!
Parameters that are declared as arrays. What is assigned to the property tells of the array, and takes
its place. An array remains if nothing of that can be listed or an array is among it.
-/
namespace DocTypes
open Text StaticType

/-- One of the names is that of an array. -/
def TypeSet.HasArray (types : TypeSet) : Prop := ∃ n ∈ types.toList, isArrayText n.text

instance (types : TypeSet) : Decidable types.HasArray :=
  inferInstanceAs (Decidable (∃ n ∈ types.toList, isArrayText n.text))

/-! The word `array` in a declaration. -/

namespace TypeOracle

mutual

/-- What a word stands for is admitted by a declaration that is understood. -/
theorem mem_canonical_of_hintType? {owner : Option ClassLike} {w : Text} : (h : TypeHint) →
    w ∈ h.words → ∀ t, hintType? owner h = some t →
      ∃ u, wordType? w owner = some u ∧ ∀ s ∈ u.canonical, s ∈ t.canonical
  | .word v, hw, t, ht => by
    obtain rfl := List.mem_singleton.mp hw
    exact ⟨t, ht, fun _ hs => hs⟩
  | .named _ _, hw, _, _ => absurd hw List.not_mem_nil
  | .nullable h, hw, _, ht => by
    obtain ⟨t, hmember, rfl⟩ := Option.map_eq_some_iff.mp ht
    obtain ⟨u, hu, hmem⟩ := mem_canonical_of_hintType? h hw t hmember
    exact ⟨u, hu, fun s hs => mem_canonical_unionOf.mpr ⟨t, List.mem_cons_self, hmem s hs⟩⟩
  | .union hs, hw, _, ht => by
    obtain ⟨ts, hts, rfl⟩ := Option.map_eq_some_iff.mp ht
    obtain ⟨t, hmember, u, hu, hmem⟩ := mem_canonical_of_hintTypes? hs hw ts hts
    exact ⟨u, hu, fun s hs => mem_canonical_unionOf.mpr ⟨t, hmember, hmem s hs⟩⟩

theorem mem_canonical_of_hintTypes? {owner : Option ClassLike} {w : Text} : (hs : List TypeHint) →
    w ∈ TypeHint.wordsList hs → ∀ ts, hintTypes? owner hs = some ts →
      ∃ t ∈ ts, ∃ u, wordType? w owner = some u ∧ ∀ s ∈ u.canonical, s ∈ t.canonical
  | [], hw, _, _ => absurd hw List.not_mem_nil
  | h :: hs, hw, ts, hts => by
    obtain ⟨t, ht, hts⟩ := Option.bind_eq_some_iff.mp hts
    obtain ⟨us, hus, hts⟩ := Option.bind_eq_some_iff.mp hts
    obtain rfl := Option.some.inj hts
    rcases List.mem_append.mp hw with hw | hw
    · exact ⟨t, List.mem_cons_self, mem_canonical_of_hintType? h hw t ht⟩
    · obtain ⟨u, hu, hmem⟩ := mem_canonical_of_hintTypes? hs hw us hus
      exact ⟨u, List.mem_cons_of_mem _ hu, hmem⟩

end

/-- The word `array`, in any case, is an array. -/
lemma wordType?_array {w : Text} (hw : lower w = "array".toList) (owner : Option ClassLike) :
    wordType? w owner = some mixedArray := by
  have hself : isSelf w = false := by
    rw [isSelf, eqIgnoreCase, eqIgnoreCase, hw]
    decide
  rw [wordType?, hself, hw]
  rfl

end TypeOracle

namespace Strategy

/-! What takes the place of the array. -/

/-- An array is found in evidence if nothing of it can be listed, or an array is among it. -/
theorem hasArray_refinedArray {evidence : OrderedSet StaticType} :
    (refinedArray evidence).HasArray ↔
      (∀ t ∈ evidence, t.canonical.isEmpty) ∨ ∃ t ∈ evidence, ∃ s ∈ t.canonical, isArrayText s := by
  have hrefined : (intersectionOf evidence.toList).typeSet.isEmpty = true ↔
      ∀ t ∈ evidence, t.canonical.isEmpty := by
    have hlisted : (∃ n, n ∈ (intersectionOf evidence.toList).typeSet) ↔
        ∃ t ∈ evidence, ∃ s, s ∈ t.canonical := by
      simpa [mem_typeSet, intersectionOf] using
        @exists_mem_canonical_intersection (memberSet evidence.toList)
    simpa [OrderedSet.isEmpty_iff] using not_congr hlisted
  by_cases hsilent : ∀ t ∈ evidence, t.canonical.isEmpty
  · rw [refinedArray, hrefined.mpr hsilent, Bool.or_true, if_pos rfl]
    exact iff_of_true (by decide) (.inl hsilent)
  · have hsome : evidence.isEmpty = false := by
      refine Bool.eq_false_iff.mpr fun hempty => hsilent fun t ht => ?_
      exact absurd ht (OrderedSet.isEmpty_iff.mp hempty t)
    rw [refinedArray, hsome, Bool.eq_false_iff.mpr (mt hrefined.mp hsilent), Bool.or_false,
      if_neg Bool.false_ne_true, or_iff_right hsilent]
    simpa [TypeSet.HasArray, mem_typeSet, TypeName.plain, intersectionOf] using
      @exists_isArrayText_intersection (memberSet evidence.toList)

variable {ctx : InferenceContext} {c : ClassLike} {p : Property} {m : Method} {q : Param}
  {h : TypeHint}

variable (ctx c) in
/-- A declared array is one after all, or another of the declared names is. -/
lemma hasArray_methodTypes (hq : boundParam? m p.name = some q) (hh : q.hint = some h)
    (hw : ∃ w ∈ h.words, lower w = "array".toList) :
    (methodTypes (.inClass p c) c ctx m).HasArray ↔
      (refinedArray (evidenceInMethod ctx.oracle p.name (some c) m)).HasArray ∨
        ∃ n ∈ hintNames h, isArrayText n.text := by
  have harray : ∃ a ∈ hintNames h, a.text = "array".toList := by
    obtain ⟨w, hw, hlower⟩ := hw
    exact ⟨.plain (lower w), (mem_hintNames h).mpr (.inl ⟨w, hw, rfl⟩), hlower⟩
  simp only [TypeSet.HasArray, OrderedSet.mem_toList,
    mem_methodTypes_of_hint (f := .inClass p c) hq hh]
  constructor
  · rintro ⟨n, ⟨hn, -⟩ | ⟨hn, -⟩ | ⟨-, rfl⟩, htext⟩
    · exact .inr ⟨n, hn, htext⟩
    · exact .inl ⟨n, hn, htext⟩
    · exact absurd htext (by decide)
  · rintro (⟨n, hn, htext⟩ | ⟨n, hn, htext⟩)
    · exact ⟨n, .inr (.inl ⟨hn, harray⟩), htext⟩
    · refine ⟨n, .inl ⟨hn, fun heq => ?_⟩, htext⟩
      rw [heq] at htext
      exact absurd htext (by decide)

/-- A parameter with an array in its declaration, all of which is understood, tells of an array where it
is assigned. -/
lemma exists_array_mem_evidence (horacle : ctx.oracle = .syntactic)
    (hq : boundParam? m p.name = some q) (hh : q.hint = some h)
    (hw : ∃ w ∈ h.words, lower w = "array".toList) (hthis : q.name ≠ "this".toList)
    (hknown : (TypeOracle.hintType? (some c) h).isSome) :
    ∃ t ∈ evidenceInMethod ctx.oracle p.name (some c) m, ∃ s ∈ t.canonical, isArrayText s := by
  obtain ⟨t, ht⟩ := Option.isSome_iff_exists.mp hknown
  obtain ⟨w, hw, hlower⟩ := hw
  obtain ⟨u, hu, hmem⟩ := TypeOracle.mem_canonical_of_hintType? h hw t ht
  obtain rfl := Option.some.inj ((TypeOracle.wordType?_array hlower (some c)).symm.trans hu)
  have hlisted : mixedArrayText ∈ t.canonical := hmem _ (by decide)
  obtain ⟨hparam, a, ha, helement, hvalue⟩ := exists_assignment_of_boundParam? hq
  have hvar := TypeOracle.syntactic_var_of_hint hparam hh hthis ht
  rw [← horacle] at hvar
  have htold : ∀ u, ctx.oracle (.var q.name) ⟨some c, some m⟩ = some u →
      (∃ s ∈ u.canonical, isArrayText s) →
        ∃ t ∈ evidenceInMethod ctx.oracle p.name (some c) m, ∃ s ∈ t.canonical, isArrayText s := by
    rintro u hu ⟨s, hs, htext⟩
    have hne : u ≠ .error := by
      rintro rfl
      simp [canonical, error, Primitive.word?] at hs
    refine ⟨u, mem_evidenceInMethod.mpr ⟨a, u, ⟨m, List.mem_singleton_self m, ha, ?_, hne⟩, ?_⟩, s, hs,
      htext⟩
    · rw [hvalue]
      exact hu
    · rw [helement]
      rfl
  refine htold _ hvar ?_
  cases q.isVariadic with
  | true =>
    obtain ⟨s, hs⟩ := exists_mem_canonical_array t
    exact ⟨s, hs, isArrayText_of_mem_array hs⟩
  | false => exact ⟨mixedArrayText, hlisted, by decide⟩

/-- A property that is set from a parameter with an array in its declaration is inferred to be an array
exactly if nothing that the method assigns to it can be listed, or an array is among that; unless the
declaration names another array or another method tells of one. Where the syntax is all there is to go
by, a declaration that is understood suffices. -/
theorem hasArray_infer_constructorParam_iff (hm : m ∈ c.methods)
    (hinst : isInstantiating ctx.options m = true) (hq : boundParam? m p.name = some q)
    (hh : q.hint = some h) (hw : ∃ w ∈ h.words, lower w = "array".toList) :
    ((constructorParam.infer (.inClass p c) ctx).HasArray ↔
      (∀ t ∈ evidenceInMethod ctx.oracle p.name (some c) m, t.canonical.isEmpty) ∨
      (∃ t ∈ evidenceInMethod ctx.oracle p.name (some c) m, ∃ s ∈ t.canonical, isArrayText s) ∨
      (∃ n ∈ hintNames h, isArrayText n.text) ∨
      ∃ m' ∈ c.methods, m' ≠ m ∧ isInstantiating ctx.options m' = true ∧
        (methodTypes (.inClass p c) c ctx m').HasArray) ∧
    (ctx.oracle = .syntactic → q.name ≠ "this".toList →
      (TypeOracle.hintType? (some c) h).isSome →
        (constructorParam.infer (.inClass p c) ctx).HasArray) := by
  have hinfer : (constructorParam.infer (.inClass p c) ctx).HasArray ↔
      ∃ m' ∈ c.methods, isInstantiating ctx.options m' = true ∧
        (methodTypes (.inClass p c) c ctx m').HasArray := by
    simp only [TypeSet.HasArray, OrderedSet.mem_toList, mem_infer_constructorParam]
    grind
  have hmethod := (hasArray_methodTypes ctx c hq hh hw).trans
    (or_congr_left hasArray_refinedArray)
  have hall : (constructorParam.infer (.inClass p c) ctx).HasArray ↔
      (methodTypes (.inClass p c) c ctx m).HasArray ∨
        ∃ m' ∈ c.methods, m' ≠ m ∧ isInstantiating ctx.options m' = true ∧
          (methodTypes (.inClass p c) c ctx m').HasArray := by
    rw [hinfer]
    constructor
    · rintro ⟨m', hm', hinst', harray⟩
      by_cases heq : m' = m
      · exact .inl (heq ▸ harray)
      · exact .inr ⟨m', hm', heq, hinst', harray⟩
    · rintro (harray | ⟨m', hm', -, hinst', harray⟩)
      · exact ⟨m, hm, hinst, harray⟩
      · exact ⟨m', hm', hinst', harray⟩
  refine ⟨by rw [hall, hmethod, or_assoc, or_assoc], fun horacle hthis hknown => ?_⟩
  exact hall.mpr (.inl (hmethod.mpr
    (.inl (.inr (exists_array_mem_evidence horacle hq hh hw hthis hknown)))))

/-- A nullable array in capitals with an element behind it, to an oracle that knows the syntax and to
one that knows nothing. -/
theorem hasArray_infer_nullable_array :
    let h : TypeHint := .nullable (.word "Array")
    let q : Param := ⟨"items", some h, none, false⟩
    let p : Property := { name := "items" }
    let m : Method := { name := "__construct", params := [q]
                        body := [.assignThis "items" (.var "items"),
                          .expr (.assign (.element (.property .this "items") none)
                            (.ofClass "App\\Item"))] }
    let c : ClassLike := { name := some "App\\Bag", members := [.property p, .method m] }
    let ctx : InferenceContext := ⟨.syntactic, default⟩
    let ctx' : InferenceContext := ⟨.silent, default⟩
    m ∈ c.methods ∧ isInstantiating ctx.options m = true ∧ boundParam? m p.name = some q ∧
      (∃ w ∈ h.words, lower w = "array".toList) ∧ q.name ≠ "this".toList ∧
      (TypeOracle.hintType? (some c) h).isSome ∧
      (constructorParam.infer (.inClass p c) ctx).names =
        ["\\App\\Item[]".toList, "null".toList] ∧
      (constructorParam.infer (.inClass p c) ctx).HasArray ∧
      (constructorParam.infer (.inClass p c) ctx').names = ["mixed[]".toList, "null".toList] ∧
      (constructorParam.infer (.inClass p c) ctx').HasArray := by
  intro h q p m c ctx ctx'
  have hmember : m ∈ c.methods := List.mem_singleton_self m
  have hinst : isInstantiating ctx.options m = true := by decide +kernel
  have hq : boundParam? m p.name = some q := rfl
  have hw : ∃ w ∈ h.words, lower w = "array".toList :=
    ⟨"Array", List.mem_singleton_self _, by decide⟩
  have hthis : q.name ≠ "this".toList := by decide
  have hhint : (TypeOracle.hintType? (some c) h).isSome := by decide +kernel
  have hnone : evidenceInMethod ctx'.oracle p.name (some c) m = ∅ := by decide +kernel
  have hsilent : ∀ t ∈ evidenceInMethod ctx'.oracle p.name (some c) m, t.canonical.isEmpty := by
    rw [hnone]
    exact fun t ht => absurd ht (OrderedSet.notMem_empty t)
  have hknown : (constructorParam.infer (.inClass p c) ctx).HasArray :=
    (hasArray_infer_constructorParam_iff hmember hinst hq rfl hw).2 rfl hthis hhint
  have hinst' : isInstantiating ctx'.options m = true := hinst
  have hunknown : (constructorParam.infer (.inClass p c) ctx').HasArray :=
    (hasArray_infer_constructorParam_iff hmember hinst' hq rfl hw).1.mpr (.inl hsilent)
  exact ⟨hmember, hinst, hq, hw, hthis, hhint, by decide +kernel, hknown, by decide +kernel,
    hunknown⟩

/-- Of a parameter that may be an array or an object of the parent class the syntax tells nothing, and
the null behind it takes the place of the array. -/
theorem not_hasArray_infer_array_or_parent :
    let h : TypeHint := .union [.word "array", .word "parent"]
    let q : Param := ⟨"items", some h, none, false⟩
    let p : Property := { name := "items" }
    let m : Method := { name := "__construct", params := [q]
                        body := [.assignThis "items" (.var "items"),
                          .branch (.var "c") [.assignThis "items" (.constant "null")] []] }
    let c : ClassLike := { name := some "App\\Cart", members := [.property p, .method m] }
    let ctx : InferenceContext := ⟨.syntactic, default⟩
    m ∈ c.methods ∧ isInstantiating ctx.options m = true ∧ boundParam? m p.name = some q ∧
      (∃ w ∈ h.words, lower w = "array".toList) ∧
      (constructorParam.infer (.inClass p c) ctx).names = ["null".toList, "parent".toList] ∧
      ¬ (constructorParam.infer (.inClass p c) ctx).HasArray := by
  intro h q p m c ctx
  have hw : ∃ w ∈ h.words, lower w = "array".toList := ⟨"array", List.mem_cons_self, by decide⟩
  exact ⟨List.mem_singleton_self m, by decide +kernel, rfl, hw, by decide +kernel, by decide +kernel⟩

end Strategy
end DocTypes
