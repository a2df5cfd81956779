import DocTypes.Proofs.Inference.Names
import Mathlib.Data.Set.Operations

/-!
What evidence amounts to. Types that say nothing, such as `mixed`, are lost when the type strings are
listed: a property of which only such types are told is said to be null if it starts as null.
-/
namespace DocTypes

namespace OrderedSet

variable {α : Type} [DecidableEq α] {s : OrderedSet α} {a : α}

lemma eq_ofList_singleton_iff : s = ofList [a] ↔ ∀ b, b ∈ s ↔ b = a := by
  constructor
  · rintro rfl b
    rw [mem_ofList, List.mem_singleton]
  · intro h
    have hperm : s.toList.Perm [a] :=
      (List.perm_ext_iff_of_nodup s.nodup (by simp)).mpr fun b =>
        (h b).trans List.mem_singleton.symm
    exact OrderedSet.ext (List.perm_singleton.mp hperm)

/-! Elements told apart by a key. -/

section
variable {κ : Type} [DecidableEq κ]

/-- One element more, unless one of its key is there. -/
def keepNewKey (key : α → κ) (kept : List α) (a : α) : List α :=
  if key a ∈ kept.map key then kept else kept ++ [a]

/-- The first element of every key, in the order in which the keys are met. -/
def firstPerKey (key : α → κ) (as : List α) : List α := as.foldl (keepNewKey key) []

/-- A key that tells the elements apart decides as equality does. -/
lemma keepNewKey_eq_toList_insert {key : α → κ} {b : α}
    (apart : ∀ c ∈ s, key c = key b → c = b) :
    keepNewKey key s.toList b = (s.insert b).toList := by
  have hmem : key b ∈ s.toList.map key ↔ b ∈ s := by
    rw [List.mem_map]
    constructor
    · rintro ⟨c, hc, hkey⟩
      exact apart c hc hkey ▸ hc
    · intro hb
      exact ⟨b, hb, rfl⟩
  rw [keepNewKey, toList_insert]
  simp only [hmem]

/-- By induction on the elements that are left, for any set of elements that were met. -/
lemma foldl_keepNewKey {key : α → κ} {as : List α} :
    ∀ {s : OrderedSet α}, (∀ a b, (a ∈ s ∨ a ∈ as) → (b ∈ s ∨ b ∈ as) → key a = key b → a = b) →
      as.foldl (keepNewKey key) s.toList = (s.insertAll as).toList := by
  induction as with
  | nil => exact fun _ => rfl
  | cons b as ih =>
    intro s apart
    have hb : ∀ c ∈ s, key c = key b → c = b := fun c hc =>
      apart c b (.inl hc) (.inr List.mem_cons_self)
    rw [List.foldl_cons, keepNewKey_eq_toList_insert hb]
    refine ih fun a c ha hc => apart a c ?_ ?_
    · rw [mem_insert] at ha
      grind
    · rw [mem_insert] at hc
      grind

/-- Elements that a key tells apart are kept once each, whether by their keys or by equality. -/
theorem firstPerKey_eq_toList_ofList {key : α → κ} {as : List α}
    (apart : Set.InjOn key {a | a ∈ as}) : firstPerKey key as = (ofList as).toList := by
  apply foldl_keepNewKey (s := ∅)
  intro a b ha hb hkey
  exact apart (ha.resolve_left (notMem_empty a)) (hb.resolve_left (notMem_empty b)) hkey

end

end OrderedSet

/-- Evidence is the same with a fingerprint in the place of equality, if no two types among what is
assigned have one fingerprint. -/
theorem toList_evidence_eq_firstPerKey {κ : Type} [DecidableEq κ] (fingerprint : StaticType → κ)
    (oracle : TypeOracle) (property : Text) (c : ClassLike) :
    (∀ m, Set.InjOn fingerprint {t | t ∈ assignedTypes oracle property (some c) m} →
      (evidenceInMethod oracle property (some c) m).toList =
        OrderedSet.firstPerKey fingerprint (assignedTypes oracle property (some c) m)) ∧
    (Set.InjOn fingerprint {t | t ∈ c.methods.flatMap (assignedTypes oracle property (some c))} →
      (evidenceInClass oracle property c).toList = OrderedSet.firstPerKey fingerprint
        (c.methods.flatMap (assignedTypes oracle property (some c)))) :=
  ⟨fun _ apart => (OrderedSet.firstPerKey_eq_toList_ofList apart).symm,
    fun apart => (OrderedSet.firstPerKey_eq_toList_ofList apart).symm⟩

namespace StaticType

/-- Only null is listed: all atoms are null or cannot be listed, and one is null. -/
theorem typeSet_eq_null_iff {t : StaticType} : t.typeSet = .ofNames ["null"] ↔
    (∀ b ∈ t.atoms, b ∈ [null, mixed, error]) ∧ null ∈ t.atoms := by
  rw [← forall_canonical_eq_null_iff, ← null_mem_canonical_iff]
  refine OrderedSet.eq_ofList_singleton_iff.trans ?_
  constructor
  · intro h
    constructor
    · intro s hs
      exact congrArg TypeName.text ((h (.plain s)).mp (mem_typeSet.mpr ⟨s, hs, rfl⟩))
    · obtain ⟨s, hs, heq⟩ := mem_typeSet.mp ((h (.plain "null")).mpr rfl)
      obtain rfl : s = "null".toList := congrArg TypeName.text heq
      exact hs
  · rintro ⟨hall, hnull⟩ n
    rw [mem_typeSet]
    constructor
    · rintro ⟨s, hs, rfl⟩
      rw [hall s hs]
    · rintro rfl
      exact ⟨_, hnull, rfl⟩

end StaticType

/-- The type of the variable of a parameter, other than `$this`, is the one it is declared by. -/
lemma TypeOracle.syntactic_var_of_hint {c : ClassLike} {m : Method} {q : Param} {h : TypeHint}
    (hq : m.param? q.name = some q) (hh : q.hint = some h) (hthis : q.name ≠ "this".toList)
    {t : StaticType} (ht : hintType? (some c) h = some t) :
    syntactic (.var q.name) ⟨some c, some m⟩ =
      some (if q.isVariadic then .array t else t) := by
  change varType? _ q.name = _
  rw [varType?, if_neg hthis]
  simp [hq, hh, ht]

/-! What is told of a property in some methods of a class. -/

/-- The assignment is in one of the methods, and its value has the type, which is not an error. -/
def IsTold (ctx : InferenceContext) (c : ClassLike) (name : Text) (ms : List Method)
    (a : PropertyAssign) (t : StaticType) : Prop :=
  ∃ m ∈ ms, a ∈ assignments name m.body ∧ ctx.oracle a.value ⟨some c, some m⟩ = some t ∧ t ≠ .error

/-- Something is told of the property, and of the property as a whole; whatever is told is made of null
and of types that cannot be listed; and null is told, or what the property starts as. -/
structure TellsOnlyNull (ctx : InferenceContext) (c : ClassLike) (p : Property) (ms : List Method) :
    Prop where
  told : ∃ a t, IsTold ctx c p.name ms a t
  vague : ∀ a t, IsTold ctx c p.name ms a t →
    a.isElement = false ∧ ∀ b ∈ t.atoms, b ∈ [StaticType.null, .mixed, .error]
  null : defaultsToNull p.defaultValue = true ∨
    ∃ a t, IsTold ctx c p.name ms a t ∧ .null ∈ t.atoms

section
variable {ctx : InferenceContext} {c : ClassLike} {p : Property} {name : Text} {m : Method}
  {t : StaticType}

lemma mem_flatMap_assignedTypes {ms : List Method} :
    t ∈ ms.flatMap (assignedTypes ctx.oracle name (some c)) ↔
      ∃ a u, IsTold ctx c name ms a u ∧ (if a.isElement then .array u else u) = t := by
  simp only [List.mem_flatMap, assignedTypes, List.mem_filterMap,
    PropertyAssign.type?_eq_some_iff, IsTold]
  grind

lemma mem_evidenceInClass : t ∈ evidenceInClass ctx.oracle name c ↔
    ∃ a u, IsTold ctx c name c.methods a u ∧ (if a.isElement then .array u else u) = t := by
  rw [evidenceInClass, OrderedSet.mem_ofList, mem_flatMap_assignedTypes]

lemma mem_evidenceInMethod : t ∈ evidenceInMethod ctx.oracle name (some c) m ↔
    ∃ a u, IsTold ctx c name [m] a u ∧ (if a.isElement then .array u else u) = t := by
  rw [evidenceInMethod, OrderedSet.mem_ofList, ← mem_flatMap_assignedTypes, List.flatMap_singleton]

/-- Evidence amounts to null: there is some, all of it is null or says nothing, and null is among it or
is what the property starts as. -/
theorem evidenceTypes_eq_null_iff {evidence : OrderedSet StaticType} {defaultValue : Option Expr} :
    evidenceTypes evidence defaultValue = .ofNames ["null"] ↔ (∃ t, t ∈ evidence) ∧
      (∀ t ∈ evidence, ∀ b ∈ t.atoms, b ∈ [StaticType.null, .mixed, .error]) ∧
      (defaultsToNull defaultValue = true ∨ ∃ t ∈ evidence, .null ∈ t.atoms) := by
  rw [evidenceTypes]
  split
  · rename_i hempty
    have hnone : ∀ t, t ∉ evidence := OrderedSet.isEmpty_iff.mp hempty
    simp only [hnone, exists_false, false_and, iff_false]
    decide
  · rename_i hempty
    have hsome : ∃ t, t ∈ evidence := by
      rw [OrderedSet.isEmpty_iff] at hempty
      push Not at hempty
      exact hempty
    have hatoms : ∀ b, (∃ t ∈ evidence.toList ++
        (if defaultsToNull defaultValue then [StaticType.null] else []), b ∈ t.atoms) ↔
          (∃ t ∈ evidence, b ∈ t.atoms) ∨ defaultsToNull defaultValue = true ∧ b = .null := by
      intro b
      cases defaultsToNull defaultValue with
      | false => simp
      | true => simp [or_and_right, exists_or, StaticType.atoms, StaticType.null]
    rw [StaticType.typeSet_eq_null_iff, and_iff_right hsome]
    simp only [StaticType.mem_atoms_intersectionOf, hatoms]
    constructor
    · rintro ⟨hall, hnull⟩
      exact ⟨fun t ht b hb => hall b (.inl ⟨t, ht, hb⟩), hnull.symm.imp And.left id⟩
    · rintro ⟨hall, hnull⟩
      refine ⟨?_, hnull.symm.imp id fun h => ⟨h, trivial⟩⟩
      rintro b (⟨t, ht, hb⟩ | ⟨-, rfl⟩)
      · exact hall t ht b hb
      · exact List.mem_cons_self

end

/-- The evidence in the methods amounts to null exactly if they tell only null. -/
lemma evidenceTypes_eq_null_iff_tellsOnlyNull {ctx : InferenceContext} {c : ClassLike} {p : Property}
    {ms : List Method} {evidence : OrderedSet StaticType}
    (hmem : ∀ t, t ∈ evidence ↔
      ∃ a u, IsTold ctx c p.name ms a u ∧ (if a.isElement then .array u else u) = t) :
    evidenceTypes evidence p.defaultValue = .ofNames ["null"] ↔ TellsOnlyNull ctx c p ms := by
  rw [evidenceTypes_eq_null_iff]
  simp only [hmem]
  constructor
  · rintro ⟨⟨_, a, u, htold, -⟩, hall, hnull⟩
    have hvague : ∀ a u, IsTold ctx c p.name ms a u →
        a.isElement = false ∧ ∀ b ∈ u.atoms, b ∈ [StaticType.null, .mixed, .error] := by
      intro a u htold
      have hatoms := hall _ ⟨a, u, htold, rfl⟩
      cases helement : a.isElement with
      | false => exact ⟨rfl, by simpa [helement] using hatoms⟩
      | true =>
        have harray := hatoms (.array u) (by simp [helement, StaticType.atoms])
        simp [StaticType.null, StaticType.mixed, StaticType.error] at harray
    refine ⟨⟨a, u, htold⟩, hvague, hnull.imp id ?_⟩
    rintro ⟨_, ⟨a, u, htold, rfl⟩, hatom⟩
    rw [(hvague a u htold).1] at hatom
    exact ⟨a, u, htold, hatom⟩
  · rintro ⟨⟨a, u, htold⟩, hvague, hnull⟩
    refine ⟨⟨_, a, u, htold, rfl⟩, ?_, hnull.imp id ?_⟩
    · rintro _ ⟨a, u, htold, rfl⟩
      rw [(hvague a u htold).1]
      exact (hvague a u htold).2
    · rintro ⟨a, u, htold, hatom⟩
      refine ⟨_, ⟨a, u, htold, rfl⟩, ?_⟩
      rwa [(hvague a u htold).1]

namespace Strategy

variable {ctx : InferenceContext} {c : ClassLike} {p : Property}

variable (ctx c p) in
/-- Assignments make a property null and nothing else exactly if all that is told of it is null or says
nothing, and it starts as null or null is told. So says a method, too, that sets the property from a
parameter without a declaration. -/
theorem eq_null_iff_tellsOnlyNull :
    (allAssign.infer (.inClass p c) ctx = .ofNames ["null"] ↔ TellsOnlyNull ctx c p c.methods) ∧
    ∀ m q, boundParam? m p.name = some q → q.hint = none →
      (methodTypes (.inClass p c) c ctx m = .ofNames ["null"] ↔ TellsOnlyNull ctx c p [m]) := by
  refine ⟨evidenceTypes_eq_null_iff_tellsOnlyNull fun t => mem_evidenceInClass, ?_⟩
  intro m q hq hh
  rw [methodTypes_of_untyped (f := .inClass p c) hq hh]
  exact evidenceTypes_eq_null_iff_tellsOnlyNull fun t => mem_evidenceInMethod

/-- A parameter of which nothing is known, and null behind it. -/
theorem eq_null_of_unknown_and_null :
    let q : Param := ⟨"owner", none, none, false⟩
    let p : Property := { name := "owner" }
    let m : Method := { name := "__construct", params := [q]
                        body := [.assignThis "owner" (.var "owner"),
                          .assignThis "owner" (.constant "null")] }
    let c : ClassLike := { name := some "App\\Draft", members := [.property p, .method m] }
    let ctx : InferenceContext := ⟨.syntactic, default⟩
    boundParam? m p.name = some q ∧ q.hint.isNone ∧
      allAssign.infer (.inClass p c) ctx = .ofNames ["null"] ∧
      methodTypes (.inClass p c) c ctx m = .ofNames ["null"] ∧
      TellsOnlyNull ctx c p c.methods ∧ TellsOnlyNull ctx c p [m] := by
  intro q p m c ctx
  obtain ⟨hclass, hmethod⟩ := eq_null_iff_tellsOnlyNull ctx c p
  have hassigned : allAssign.infer (.inClass p c) ctx = .ofNames ["null"] := by decide +kernel
  have htypes : methodTypes (.inClass p c) c ctx m = .ofNames ["null"] := by decide +kernel
  exact ⟨rfl, rfl, hassigned, htypes, hclass.mp hassigned, (hmethod m q rfl rfl).mp htypes⟩

/-- A declared `mixed` is assigned, and the property is said to be null, by its class and by the method
that sets it from a parameter without a declaration. -/
theorem eq_null_and_told_mixed :
    let q : Param := ⟨"value", none, none, false⟩
    let p : Property := { name := "value" }
    let m : Method := { name := "__construct"
                        params := [q, ⟨"fallback", some (.word "mixed"), none, false⟩]
                        body := [.assignThis "value" (.var "value"),
                          .assignThis "value" (.var "fallback")] }
    let c : ClassLike := { name := some "App\\Box", members := [.property p, .method m] }
    let ctx : InferenceContext := ⟨.syntactic, default⟩
    boundParam? m p.name = some q ∧ q.hint.isNone ∧
      allAssign.infer (.inClass p c) ctx = .ofNames ["null"] ∧
      methodTypes (.inClass p c) c ctx m = .ofNames ["null"] ∧
      ∃ a t, IsTold ctx c p.name [m] a t ∧ m ∈ c.methods ∧ t ≠ .null := by
  intro q p m c ctx
  have hmember : m ∈ c.methods := List.mem_singleton_self m
  have htold : IsTold ctx c p.name [m] ⟨.property .this "value", .var "fallback", false⟩ .mixed :=
    ⟨m, List.mem_singleton_self m, List.mem_cons_of_mem _ (List.mem_singleton_self _), rfl,
      by decide⟩
  exact ⟨rfl, rfl, by decide +kernel, by decide +kernel, _, _, htold, hmember, by decide⟩

end Strategy
end DocTypes
