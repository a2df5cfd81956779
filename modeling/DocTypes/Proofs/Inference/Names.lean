import DocTypes.Inference.Inferer
import DocTypes.Proofs.Inference.Blindness
import DocTypes.Proofs.StaticType.Atoms
import DocTypes.Proofs.Syntax.Visits
import DocTypes.Proofs.Text.Case

/-!
The names that inference finds. It has no line breaks to add: what it finds for a property holds one
only if a type that the oracle tells or a declaration of a parameter does.
-/
namespace DocTypes
open Text

namespace Text

/-- There is no line break in the text. -/
def IsUnbroken (s : Text) : Prop := '\n' ∉ s ∧ '\r' ∉ s

instance (s : Text) : Decidable (IsUnbroken s) :=
  inferInstanceAs (Decidable ('\n' ∉ s ∧ '\r' ∉ s))

lemma isUnbroken_append {s t : Text} (hs : IsUnbroken s) (ht : IsUnbroken t) :
    IsUnbroken (s ++ t) := by
  simp_all [IsUnbroken]

lemma isUnbroken_lower {s : Text} (h : IsUnbroken s) : IsUnbroken (lower s) := by
  rwa [IsUnbroken, mem_lower (by decide), mem_lower (by decide)]

end Text

/-- None of the names has a line break in it. -/
def TypeSet.IsUnbroken (types : TypeSet) : Prop := ∀ n ∈ types.toList, Text.IsUnbroken n.text

instance (types : TypeSet) : Decidable types.IsUnbroken :=
  inferInstanceAs (Decidable (∀ n ∈ types.toList, Text.IsUnbroken n.text))

/-! Names in types and declarations. -/

namespace StaticType

mutual

/-- The names of the classes that occur in a type. -/
def classNames : StaticType → List Text
  | .named name => [name]
  | .array item => item.classNames
  | .primitive _ => []
  | .union ts => classNamesList ts
  | .intersection ts => classNamesList ts

def classNamesList : List StaticType → List Text
  | [] => []
  | t :: ts => t.classNames ++ classNamesList ts

end

/-- None of the classes has a line break in its name. -/
def IsUnbroken (t : StaticType) : Prop := ∀ n ∈ t.classNames, Text.IsUnbroken n

instance (t : StaticType) : Decidable t.IsUnbroken :=
  inferInstanceAs (Decidable (∀ n ∈ t.classNames, Text.IsUnbroken n))

lemma mem_classNamesList {n : Text} {ts : List StaticType} :
    n ∈ classNamesList ts ↔ ∃ t ∈ ts, n ∈ t.classNames := by
  induction ts with
  | nil => simp [classNamesList]
  | cons t ts ih => simp [classNamesList, ih]

/-- Said of the words and of `mixed[]`, and of an array if it is said of the item. -/
structure IsArrayClosed (P : Text → Prop) : Prop where
  word : ∀ (p : Primitive) (w : Text), p.word? = some w → P w
  mixedArray : P mixedArrayText
  array : ∀ s, P s → P (s ++ "[]")

section
variable {P : Text → Prop}

lemma forall_arrayTexts (hP : IsArrayClosed P) {items : OrderedSet Text} (h : ∀ s ∈ items.toList, P s) :
    ∀ s ∈ (arrayTexts items).toList, P s := by
  rw [arrayTexts]
  split
  · simpa only [OrderedSet.mem_toList, OrderedSet.mem_ofList, List.mem_singleton, forall_eq]
      using hP.mixedArray
  · intro s hs
    obtain ⟨t, ht, rfl⟩ : ∃ t ∈ items.toList, t ++ "[]" = s := by simpa [OrderedSet.image] using hs
    exact hP.array t (h t ht)

mutual

/-- What is said of the rooted class names, too, is said of every type string. -/
theorem forall_canonical (hP : IsArrayClosed P) : (t : StaticType) →
    (∀ n ∈ t.classNames, P ('\\' :: n)) → ∀ s ∈ t.canonical.toList, P s
  | .primitive p, _ => by
    simp only [canonical, OrderedSet.mem_toList, OrderedSet.mem_ofList, Option.mem_toList]
    exact hP.word p
  | .named name, h => by
    simp only [canonical, OrderedSet.mem_toList, OrderedSet.mem_ofList, List.mem_singleton]
    rintro s rfl
    exact h name (by simp [classNames])
  | .array item, h => forall_arrayTexts hP (forall_canonical hP item h)
  | .union ts, h => fun s hs => forall_canonicalMembers hP ts h s (OrderedSet.mem_ofList.mp hs)
  | .intersection ts, h => fun s hs =>
    forall_canonicalMembers hP ts h s (OrderedSet.mem_ofList.mp (mem_dropMixedArray.mp hs).1)

theorem forall_canonicalMembers (hP : IsArrayClosed P) : (ts : List StaticType) →
    (∀ n ∈ classNamesList ts, P ('\\' :: n)) → ∀ s ∈ canonicalMembers ts, P s
  | [], _ => by simp [canonicalMembers]
  | t :: ts, h => by
    intro s hs
    simp only [classNamesList, List.mem_append] at h
    rcases List.mem_append.mp hs with hs | hs
    · exact forall_canonical hP t (fun n hn => h n (.inl hn)) s hs
    · exact forall_canonicalMembers hP ts (fun n hn => h n (.inr hn)) s hs

end

end

lemma isArrayClosed_isUnbroken : IsArrayClosed Text.IsUnbroken := by
  refine ⟨fun p w hw => ?_, by decide, fun s hs => isUnbroken_append hs (by decide)⟩
  cases p <;> cases hw <;> decide

lemma isUnbroken_canonical {t : StaticType} (h : t.IsUnbroken) :
    ∀ s ∈ t.canonical.toList, Text.IsUnbroken s :=
  forall_canonical isArrayClosed_isUnbroken t fun n hn =>
    isUnbroken_append (s := ['\\']) (by decide) (h n hn)

lemma mem_typeSet {t : StaticType} {n : TypeName} :
    n ∈ t.typeSet ↔ ∃ s ∈ t.canonical, TypeName.plain s = n := by
  simp [typeSet, TypeSet.ofNames]

lemma isUnbroken_typeSet {t : StaticType} (h : t.IsUnbroken) :
    t.typeSet.IsUnbroken := by
  intro n hn
  obtain ⟨s, hs, rfl⟩ := mem_typeSet.mp hn
  exact isUnbroken_canonical h s hs

lemma isUnbroken_typeSet_intersectionOf {ts : List StaticType}
    (h : ∀ t ∈ ts, t.IsUnbroken) : (intersectionOf ts).typeSet.IsUnbroken := by
  refine isUnbroken_typeSet fun n hn => ?_
  obtain ⟨t, ht, hn⟩ := mem_classNamesList.mp hn
  exact h t (mem_memberSet.mp ht) n hn

end StaticType

namespace TypeHint

mutual

/-- The words and the class names of a declaration, full and as written. -/
def names : TypeHint → List Text
  | .word w => [w]
  | .named full written => [full, written]
  | .nullable h => h.names
  | .union hs => namesList hs

def namesList : List TypeHint → List Text
  | [] => []
  | h :: hs => h.names ++ namesList hs

end

end TypeHint

namespace Strategy

mutual

theorem isUnbroken_hintNames : (h : TypeHint) → (∀ n ∈ h.names, IsUnbroken n) →
    ∀ n ∈ hintNames h, IsUnbroken n.text
  | .word w, h => by
    simp only [hintNames, List.mem_singleton]
    rintro n rfl
    exact isUnbroken_lower (h w (by simp [TypeHint.names]))
  | .named full written, h => by
    rw [hintNames]
    split
    · simp only [List.mem_singleton]
      rintro n rfl
      exact h written (by simp [TypeHint.names])
    · simp only [List.mem_singleton]
      rintro n rfl
      exact isUnbroken_append (s := ['\\']) (by decide) (h full (by simp [TypeHint.names]))
  | .nullable h, hn => isUnbroken_hintNames h hn
  | .union hs, hn => isUnbroken_hintNamesList hs hn

theorem isUnbroken_hintNamesList : (hs : List TypeHint) →
    (∀ n ∈ TypeHint.namesList hs, IsUnbroken n) → ∀ n ∈ hintNamesList hs, IsUnbroken n.text
  | [], _ => by simp [hintNamesList]
  | h :: hs, hn => by
    intro n hmem
    simp only [TypeHint.namesList, List.mem_append] at hn
    rcases List.mem_append.mp hmem with hmem | hmem
    · exact isUnbroken_hintNames h (fun n h => hn n (.inl h)) n hmem
    · exact isUnbroken_hintNamesList hs (fun n h => hn n (.inr h)) n hmem

end

end Strategy

/-! The evidence in the methods of a class. -/

/-- A property is set from one of the parameters of the method. -/
theorem mem_of_boundParam? {m : Method} {name : Text} {p : Param}
    (h : boundParam? m name = some p) : p ∈ m.params :=
  List.mem_of_find?_eq_some (exists_visit_of_boundParam? h).1

/-- An assignment tells the type of its value, if that is known and no error. -/
lemma PropertyAssign.type?_eq_some_iff {oracle : TypeOracle} {scope : ExprScope} {a : PropertyAssign}
    {t : StaticType} : a.type? oracle scope = some t ↔ ∃ u, oracle a.value scope = some u ∧
      u ≠ .error ∧ (if a.isElement then .array u else u) = t := by
  rw [type?]
  cases oracle a.value scope with
  | none => simp
  | some u =>
    by_cases h : u = .error
    · simp [h, StaticType.isError]
    · simp [h, StaticType.isError]

/-! What is found. -/

lemma isUnbroken_evidenceTypes {evidence : OrderedSet StaticType} (defaultValue : Option Expr)
    (h : ∀ t ∈ evidence.toList, t.IsUnbroken) :
    (evidenceTypes evidence defaultValue).IsUnbroken := by
  rw [evidenceTypes]
  split
  · exact nofun
  · refine StaticType.isUnbroken_typeSet_intersectionOf fun t ht => ?_
    rcases List.mem_append.mp ht with ht | ht
    · exact h t ht
    · split at ht
      · obtain rfl := List.mem_singleton.mp ht
        simp [StaticType.IsUnbroken, StaticType.null, StaticType.classNames]
      · cases ht

lemma isUnbroken_refinedArray {evidence : OrderedSet StaticType}
    (h : ∀ t ∈ evidence.toList, t.IsUnbroken) :
    (Strategy.refinedArray evidence).IsUnbroken := by
  rw [Strategy.refinedArray]
  split
  · decide
  · exact StaticType.isUnbroken_typeSet_intersectionOf h

/-- The types that the oracle tells of what is assigned to the property in the class hold no line
break. -/
def TypeOracle.IsUnbroken (oracle : TypeOracle) (name : Text) (c : ClassLike) : Prop :=
  ∀ m ∈ c.methods, ∀ a ∈ assignments name m.body, ∀ t, oracle a.value ⟨some c, some m⟩ = some t →
    t.IsUnbroken

instance (oracle : TypeOracle) (name : Text) (c : ClassLike) :
    Decidable (oracle.IsUnbroken name c) :=
  inferInstanceAs (Decidable (∀ m ∈ c.methods, ∀ a ∈ assignments name m.body,
    ∀ t ∈ oracle a.value ⟨some c, some m⟩, t.IsUnbroken))

/-- The declarations of the parameters in the class hold no line break. -/
def ClassLike.HasUnbrokenHints (c : ClassLike) : Prop :=
  ∀ m ∈ c.methods, ∀ p ∈ m.params, ∀ h, p.hint = some h → ∀ n ∈ h.names, Text.IsUnbroken n

instance (c : ClassLike) : Decidable c.HasUnbrokenHints :=
  inferInstanceAs (Decidable (∀ m ∈ c.methods, ∀ p ∈ m.params, ∀ h ∈ p.hint,
    ∀ n ∈ h.names, Text.IsUnbroken n))

section
variable {ctx : InferenceContext} {c : ClassLike} {p : Property}
  (htypes : ctx.oracle.IsUnbroken p.name c)
include htypes

lemma isUnbroken_assignedTypes {m : Method} (hm : m ∈ c.methods) {t : StaticType}
    (ht : t ∈ assignedTypes ctx.oracle p.name (some c) m) : t.IsUnbroken := by
  obtain ⟨a, ha, ht⟩ := List.mem_filterMap.mp ht
  obtain ⟨u, hu, -, rfl⟩ := PropertyAssign.type?_eq_some_iff.mp ht
  have hunbroken := htypes m hm a ha u hu
  split
  · exact hunbroken
  · exact hunbroken

end

/-! All names that inference finds. -/

/-- The first answer is that of one of the strategies. -/
lemma Inferer.forall_firstAnswer {f : Field} {ctx : InferenceContext} {ss : List Strategy}
    {P : TypeName → Prop} (h : ∀ s ∈ ss, ∀ n ∈ (s.infer f ctx).toList, P n) :
    ∀ n ∈ (firstAnswer f ctx ss).toList, P n := by
  induction ss with
  | nil => exact nofun
  | cons s ss ih =>
    rw [List.forall_mem_cons] at h
    rw [firstAnswer]
    split
    · exact ih h.2
    · exact h.1

section
variable {ctx : InferenceContext} {c : ClassLike} {p : Property} {P : TypeName → Prop}
  (hnull : P (.plain "null"))
  (hclass : ∀ n ∈ (evidenceTypes (evidenceInClass ctx.oracle p.name c) p.defaultValue).toList, P n)
  (hmethod : ∀ m ∈ c.methods, ∀ n ∈ (evidenceTypes
    (evidenceInMethod ctx.oracle p.name (some c) m) p.defaultValue).toList, P n)
  (harray : ∀ m ∈ c.methods, ∀ n ∈ (Strategy.refinedArray
    (evidenceInMethod ctx.oracle p.name (some c) m)).toList, P n)
  (hhints : ∀ m ∈ c.methods, ∀ q ∈ m.params, ∀ h, q.hint = some h →
    ∀ n ∈ Strategy.hintNames h, P n)
include hnull hclass hmethod harray hhints

omit hclass in
lemma forall_methodTypes {m : Method} (hm : m ∈ c.methods) :
    ∀ n ∈ (Strategy.methodTypes (.inClass p c) c ctx m).toList, P n := by
  intro n hn
  cases hq : boundParam? m p.name with
  | none =>
    rw [Strategy.methodTypes_of_unbound hq] at hn
    exact absurd hn (OrderedSet.notMem_empty n)
  | some q =>
    cases hh : q.hint with
    | none =>
      rw [Strategy.methodTypes_of_untyped hq hh] at hn
      exact hmethod m hm n hn
    | some h =>
      rcases (Strategy.mem_methodTypes_of_hint hq hh).mp hn with ⟨hn, -⟩ | ⟨hn, -⟩ | ⟨-, rfl⟩
      · exact hhints m hm q (mem_of_boundParam? hq) h hh n hn
      · exact harray m hm n hn
      · exact hnull

lemma forall_infer (kind : StrategyKind) :
    ∀ n ∈ ((Strategy.ofKind kind).infer (.inClass p c) ctx).toList, P n := by
  cases kind with
  | allAssign => exact hclass
  | constructorParam =>
    intro n hn
    obtain ⟨m, hm, -, hn⟩ := Strategy.mem_infer_constructorParam.mp hn
    exact forall_methodTypes hnull hmethod harray hhints hm n hn

/-- A name that is found is evidence in the class or in one of its methods, or declared for a
parameter. -/
theorem forall_inferIn (o : InferenceOptions) :
    ∀ n ∈ ((Inferer.ofOptions o).inferIn p c ctx).toList, P n := by
  refine Inferer.forall_firstAnswer fun s hs => ?_
  obtain ⟨kind, -, rfl⟩ := Inferer.exists_kind hs
  exact forall_infer hnull hclass hmethod harray hhints kind

end

/-- Inference finds names without line breaks. -/
theorem isUnbroken_inferIn {ctx : InferenceContext} {c : ClassLike} {p : Property}
    (htypes : ctx.oracle.IsUnbroken p.name c) (hhints : c.HasUnbrokenHints)
    (o : InferenceOptions) : ((Inferer.ofOptions o).inferIn p c ctx).IsUnbroken := by
  have hmethod : ∀ m ∈ c.methods,
      ∀ t ∈ (evidenceInMethod ctx.oracle p.name (some c) m).toList, t.IsUnbroken :=
    fun m hm t ht => isUnbroken_assignedTypes htypes hm (OrderedSet.mem_ofList.mp ht)
  have hclass : ∀ t ∈ (evidenceInClass ctx.oracle p.name c).toList, t.IsUnbroken := by
    intro t ht
    obtain ⟨m, hm, ht⟩ := List.mem_flatMap.mp (OrderedSet.mem_ofList.mp ht)
    exact isUnbroken_assignedTypes htypes hm ht
  exact forall_inferIn (by decide) (isUnbroken_evidenceTypes _ hclass)
    (fun m hm => isUnbroken_evidenceTypes _ (hmethod m hm))
    (fun m hm => isUnbroken_refinedArray (hmethod m hm))
    (fun m hm q hq h hh => Strategy.isUnbroken_hintNames h (hhints m hm q hq h hh)) o

end DocTypes
