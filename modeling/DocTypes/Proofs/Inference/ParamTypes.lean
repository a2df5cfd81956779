import DocTypes.Proofs.Inference.Aliases
import DocTypes.Proofs.Inference.Evidence
import DocTypes.Proofs.Inference.Methods
import DocTypes.Proofs.Doc.VarInfo
import Mathlib.Data.List.MinMax

/-!
A parameter and the property that is set from it. The names that the declaration gives to the property
are the type strings of the variable, unless the parameter takes any number of arguments or null is
declared within the members of a union only.
-/
namespace DocTypes
open Text Name

namespace TypeHint

mutual

/-- Some part of the declaration, or all of it, is marked as nullable. -/
def hasNullable : TypeHint → Bool
  | .word _ => false
  | .named _ _ => false
  | .nullable _ => true
  | .union hs => hasNullableList hs

def hasNullableList : List TypeHint → Bool
  | [] => false
  | h :: hs => h.hasNullable || hasNullableList hs

end

/-- The declaration as a whole is marked as nullable. -/
def isNullable : TypeHint → Bool
  | .nullable _ => true
  | .word _ => false
  | .named _ _ => false
  | .union _ => false

/-- The words that are names in a property and types of a variable alike. -/
def basicWords : List Text := ["int", "float", "bool", "string", "callable", "object", "null"]

/-- Declared by basic words, in whatever case, and by classes under their own names. -/
structure IsBasic (h : TypeHint) : Prop where
  words : ∀ w ∈ h.words, lower w ∈ basicWords
  classes : ∀ x ∈ h.classes, Strategy.isAliased x.1 x.2 = false

/-- A name that the declaration gives to a property. -/
def IsName (h : TypeHint) (s : Text) : Prop :=
  (∃ w ∈ h.words, s = lower w) ∨ (∃ x ∈ h.classes, s = '\\' :: x.1) ∨
    h.isNullable ∧ s = "null".toList

/-- A string of the type that the declaration gives to a variable. -/
def IsString (h : TypeHint) (s : Text) : Prop :=
  (∃ w ∈ h.words, s = lower w) ∨ (∃ x ∈ h.classes, s = '\\' :: unrooted x.1) ∨
    h.hasNullable ∧ s = "null".toList

end TypeHint

namespace TypeOracle
open TypeHint

/-- A basic word stands for the primitive that is called so. -/
lemma wordType?_of_basic {w : Text} (hw : lower w ∈ basicWords) (owner : Option ClassLike) :
    ∃ p : Primitive, wordType? w owner = some (.primitive p) ∧ p.word? = some (lower w) := by
  have key : ∀ v ∈ basicWords, v ≠ lower "self" ∧ v ≠ lower "static" ∧
      ∃ p ∈ [Primitive.int, .float, .bool, .string, .callable, .object, .null],
        wordTypes.lookup v = some (.primitive p) ∧ p.word? = some v := by decide
  obtain ⟨hself, hstatic, p, -, htype, hword⟩ := key _ hw
  refine ⟨p, ?_, hword⟩
  rw [wordType?, isSelf, eqIgnoreCase, eqIgnoreCase, beq_false_of_ne hself,
    beq_false_of_ne hstatic, if_neg (by decide), htype]

mutual

/-- The strings of a declared type are its words, its classes and null. -/
theorem exists_hintType? (owner : Option ClassLike) : (h : TypeHint) →
    (∀ w ∈ h.words, lower w ∈ basicWords) → ∃ t, hintType? owner h = some t ∧
      ∀ s, s ∈ t.canonical ↔ h.IsString s
  | .word w, hw => by
    obtain ⟨p, htype, hword⟩ := wordType?_of_basic (hw w (by simp [words])) owner
    refine ⟨.primitive p, htype, fun s => ?_⟩
    simp [StaticType.canonical, hword, IsString, words, classes, hasNullable]
  | .named full written, _ => by
    refine ⟨.ofClass full, rfl, fun s => ?_⟩
    simp [StaticType.canonical, StaticType.ofClass, IsString, words, classes, hasNullable]
  | .nullable h, hw => by
    obtain ⟨t, htype, hstrings⟩ := exists_hintType? owner h hw
    refine ⟨.unionOf [t, .null], by rw [hintType?, htype]; rfl, fun s => ?_⟩
    have hnull : s ∈ StaticType.null.canonical ↔ s = "null".toList := by
      simp [StaticType.canonical, StaticType.null, Primitive.word?]
    rw [StaticType.mem_canonical_unionOf]
    simp only [List.mem_cons, List.not_mem_nil, or_false, exists_eq_or_imp, exists_eq_left,
      hstrings, hnull, IsString, words, classes, hasNullable]
    grind
  | .union hs, hw => by
    obtain ⟨ts, htypes, hstrings⟩ := exists_hintTypes? owner hs hw
    refine ⟨.unionOf ts, by rw [hintType?, htypes]; rfl, fun s => ?_⟩
    rw [StaticType.mem_canonical_unionOf, hstrings]
    rfl

theorem exists_hintTypes? (owner : Option ClassLike) : (hs : List TypeHint) →
    (∀ w ∈ wordsList hs, lower w ∈ basicWords) → ∃ ts, hintTypes? owner hs = some ts ∧
      ∀ s, (∃ t ∈ ts, s ∈ t.canonical) ↔ (∃ w ∈ wordsList hs, s = lower w) ∨
        (∃ x ∈ classesList hs, s = '\\' :: unrooted x.1) ∨
          hasNullableList hs ∧ s = "null".toList
  | [], _ => ⟨[], rfl, fun s => by simp [wordsList, classesList, hasNullableList]⟩
  | h :: hs, hw => by
    simp only [wordsList, List.mem_append] at hw
    obtain ⟨t, htype, hstrings⟩ := exists_hintType? owner h fun w h => hw w (.inl h)
    obtain ⟨ts, htypes, hmembers⟩ := exists_hintTypes? owner hs fun w h => hw w (.inr h)
    refine ⟨t :: ts, by rw [hintTypes?, htype, htypes]; rfl, fun s => ?_⟩
    simp only [List.exists_mem_cons_iff, hstrings, hmembers, IsString, wordsList, classesList,
      List.mem_append, hasNullableList, Bool.or_eq_true]
    grind

end

end TypeOracle

namespace TypeHint

variable {h : TypeHint}

lemma isNullable_imp : h.isNullable → h.hasNullable := by
  cases h <;> simp [isNullable, hasNullable]

/-- A basic word is no class and no array. -/
lemma IsBasic.lower_ne (hb : h.IsBasic) {w : Text} (hw : w ∈ h.words) (s : Text) :
    lower w ≠ '\\' :: s ∧ StaticType.isArrayText (lower w) = false := by
  have key : ∀ v ∈ basicWords, v.head? ≠ some '\\' ∧ StaticType.isArrayText v = false := by decide
  obtain ⟨hhead, harray⟩ := key _ (hb.words w hw)
  refine ⟨fun heq => hhead ?_, harray⟩
  rw [heq]
  rfl

/-- Names and strings are the same if full names are not rooted and null is not declared for a member
only. -/
lemma isName_iff_isString (hb : h.IsBasic) : (∀ s, h.IsName s ↔ h.IsString s) ↔
    (∀ x ∈ h.classes, unrooted x.1 = x.1) ∧
      (h.hasNullable → h.isNullable ∨ ∃ w ∈ h.words, lower w = "null".toList) := by
  constructor
  · intro hsame
    constructor
    · intro x hx
      rcases (hsame ('\\' :: x.1)).mp (.inr (.inl ⟨x, hx, rfl⟩)) with
        ⟨w, hw, heq⟩ | ⟨y, -, heq⟩ | ⟨-, heq⟩
      · exact absurd heq.symm (hb.lower_ne hw x.1).1
      · rw [(List.cons.inj heq).2, unrooted_unrooted]
      · cases heq
    · intro hnull
      rcases (hsame "null".toList).mpr (.inr (.inr ⟨hnull, rfl⟩)) with
        ⟨w, hw, heq⟩ | ⟨x, -, heq⟩ | ⟨hwhole, -⟩
      · exact .inr ⟨w, hw, heq.symm⟩
      · cases heq
      · exact .inl hwhole
  · rintro ⟨hclasses, hnull⟩ s
    have hclass : (∃ x ∈ h.classes, s = '\\' :: x.1) ↔
        ∃ x ∈ h.classes, s = '\\' :: unrooted x.1 := by
      refine exists_congr fun x => and_congr_right fun hx => ?_
      rw [hclasses x hx]
    rw [IsName, IsString, hclass]
    constructor
    · rintro (hw | hx | ⟨hwhole, heq⟩)
      · exact .inl hw
      · exact .inr (.inl hx)
      · exact .inr (.inr ⟨isNullable_imp hwhole, heq⟩)
    · rintro (hw | hx | ⟨hpart, rfl⟩)
      · exact .inl hw
      · exact .inr (.inl hx)
      · rcases hnull hpart with hwhole | ⟨w, hw, heq⟩
        · exact .inr (.inr ⟨hwhole, rfl⟩)
        · exact .inl ⟨w, hw, heq.symm⟩

/-- The names are never those of an array of the type. They would all be classes, and the longest of
them would be listed with brackets behind it. -/
lemma not_isName_iff_array (hb : h.IsBasic) {t : StaticType}
    (ht : ∀ s, s ∈ t.canonical ↔ h.IsString s) :
    ¬ ∀ s, h.IsName s ↔ s ∈ StaticType.canonical (.array t) := by
  intro hsame
  have harray : ∀ s, h.IsName s → StaticType.isArrayText s := fun s hs =>
    StaticType.isArrayText_of_mem_array ((hsame s).mp hs)
  have hclass : ∀ s, h.IsName s → ∃ x ∈ h.classes, s = '\\' :: x.1 := by
    rintro s (⟨w, hw, rfl⟩ | hx | ⟨hwhole, rfl⟩)
    · have := harray (lower w) (.inl ⟨w, hw, rfl⟩)
      rw [(hb.lower_ne hw []).2] at this
      cases this
    · exact hx
    · exact absurd (harray "null" (.inr (.inr ⟨hwhole, rfl⟩))) (by decide)
  obtain ⟨s, hs⟩ := StaticType.exists_mem_canonical_array t
  obtain ⟨y, hy, -⟩ := hclass s ((hsame s).mpr hs)
  obtain ⟨x, hx⟩ := Option.ne_none_iff_exists'.mp fun hnone : h.classes.argmax
    (fun x => (unrooted x.1).length) = none => List.ne_nil_of_mem hy (List.argmax_eq_none.mp hnone)
  have hlisted : '\\' :: unrooted x.1 ∈ t.canonical :=
    (ht _).mpr (.inr (.inl ⟨x, List.argmax_mem hx, rfl⟩))
  obtain ⟨z, hz, heq⟩ := hclass _
    ((hsame _).mpr (StaticType.mem_canonical_array.mpr (.inr ⟨_, hlisted, rfl⟩)))
  have hlonger : unrooted z.1 = unrooted x.1 ++ "[]" := by
    rw [← (List.cons.inj heq).2]
    exact unrooted_append_self (unrooted_unrooted x.1) rfl
  have hle := List.le_of_mem_argmax hz hx
  rw [hlonger, List.length_append] at hle
  exact absurd hle (by simp)

end TypeHint

namespace Strategy
open TypeHint

variable {ctx : InferenceContext} {c : ClassLike} {p : Property} {m : Method} {q : Param}
  {h : TypeHint}

lemma isNullable_of_hint (hh : q.hint = some h) (hd : q.defaultValue = none) :
    isNullable ctx c m q = h.isNullable := by
  rw [isNullable, hh, hd]
  cases h <;> rfl

/-- The names of a basic declaration are taken as they are: none is a bare `array`. -/
lemma mem_methodTypes_of_basic (hq : boundParam? m p.name = some q) (hh : q.hint = some h)
    (hd : q.defaultValue = none) (hb : h.IsBasic) {n : TypeName} :
    n ∈ methodTypes (.inClass p c) c ctx m ↔ ∃ s, h.IsName s ∧ .plain s = n := by
  have hnames : ∀ a, a ∈ hintNames h ↔ (∃ w ∈ h.words, a = .plain (lower w)) ∨
      ∃ x ∈ h.classes, a = .plain ('\\' :: x.1) := by
    intro a
    rw [mem_hintNames]
    refine or_congr_right (exists_congr fun x => and_congr_right fun hx => ?_)
    rw [className, if_neg (by simp [hb.classes x hx])]
  have hplain : ∀ a ∈ hintNames h, a.text ≠ "array".toList := by
    intro a ha
    rcases (hnames a).mp ha with ⟨w, hw, rfl⟩ | ⟨x, -, rfl⟩
    · have hne : "array".toList ∉ basicWords := by decide
      exact fun heq => hne (heq ▸ hb.words w hw)
    · exact fun heq => absurd (List.cons.inj heq).1 (by decide)
  rw [mem_methodTypes_of_hint hq hh, isNullable_of_hint hh hd]
  constructor
  · rintro (⟨hn, -⟩ | ⟨-, a, ha, htext⟩ | ⟨hwhole, rfl⟩)
    · rcases (hnames n).mp hn with ⟨w, hw, rfl⟩ | ⟨x, hx, rfl⟩
      · exact ⟨lower w, .inl ⟨w, hw, rfl⟩, rfl⟩
      · exact ⟨'\\' :: x.1, .inr (.inl ⟨x, hx, rfl⟩), rfl⟩
    · exact absurd htext (hplain a ha)
    · exact ⟨"null", .inr (.inr ⟨hwhole, rfl⟩), rfl⟩
  · rintro ⟨s, ⟨w, hw, rfl⟩ | ⟨x, hx, rfl⟩ | ⟨hwhole, rfl⟩, rfl⟩
    · have hn : TypeName.plain (lower w) ∈ hintNames h := (hnames _).mpr (.inl ⟨w, hw, rfl⟩)
      exact .inl ⟨hn, hplain _ hn⟩
    · have hn : TypeName.plain ('\\' :: x.1) ∈ hintNames h := (hnames _).mpr (.inr ⟨x, hx, rfl⟩)
      exact .inl ⟨hn, hplain _ hn⟩
    · exact .inr (.inr ⟨hwhole, rfl⟩)

variable (ctx c) in
/-- A property that is set from a parameter takes the names of its declaration. These are the strings
of the type of the variable exactly if the parameter is not variadic, full names are not rooted, and
null is declared for all of it or by the word, and not for members of a union only. -/
theorem sameElements_methodTypes_iff (hq : boundParam? m p.name = some q) (hh : q.hint = some h)
    (hd : q.defaultValue = none) (hb : h.IsBasic) (hthis : q.name ≠ "this".toList) :
    ∃ t, TypeOracle.syntactic (.var q.name) ⟨some c, some m⟩ = some t ∧
      ((methodTypes (.inClass p c) c ctx m).sameElements t.typeSet = true ↔
        q.isVariadic = false ∧ (∀ x ∈ h.classes, unrooted x.1 = x.1) ∧
          (h.hasNullable → h.isNullable ∨ ∃ w ∈ h.words, lower w = "null".toList)) := by
  obtain ⟨t, ht, hstrings⟩ := TypeOracle.exists_hintType? (some c) h hb.words
  have hvar := TypeOracle.syntactic_var_of_hint (exists_assignment_of_boundParam? hq).1 hh hthis ht
  have hsame : ∀ u : StaticType, (methodTypes (.inClass p c) c ctx m).sameElements u.typeSet = true ↔
      ∀ s, h.IsName s ↔ s ∈ u.canonical := by
    intro u
    rw [OrderedSet.sameElements_iff]
    simp only [mem_methodTypes_of_basic hq hh hd hb, StaticType.mem_typeSet]
    constructor
    · intro hnames s
      simpa [TypeName.plain] using hnames (.plain s)
    · intro hstrings n
      simp only [hstrings]
  refine ⟨_, hvar, ?_⟩
  rw [hsame]
  cases q.isVariadic with
  | true =>
    simp only [if_true, Bool.true_eq_false, false_and, iff_false]
    exact not_isName_iff_array hb hstrings
  | false =>
    simp only [Bool.false_eq_true, if_false, hstrings, true_and]
    exact isName_iff_isString hb

/-- A nullable class in a union that has the word for null as well, and words in capitals. -/
theorem sameElements_methodTypes_nullable_member :
    let h : TypeHint := .union [.nullable (.named "App\\User" "User"), .word "Int", .word "NULL"]
    let q : Param := ⟨"owner", some h, none, false⟩
    let p : Property := { name := "user" }
    let m : Method := { name := "__construct", params := [q]
                        body := [.assignThis "user" (.var "owner")] }
    let c : ClassLike := { name := some "App\\Task", members := [.property p, .method m] }
    let ctx : InferenceContext := ⟨.syntactic, default⟩
    boundParam? m p.name = some q ∧ h.IsBasic ∧ h.hasNullable ∧ q.name ≠ "this".toList ∧
      (methodTypes (.inClass p c) c ctx m).names = ["\\App\\User".toList, "int".toList, "null".toList] ∧
      ∃ t, TypeOracle.syntactic (.var q.name) ⟨some c, some m⟩ = some t ∧
        (methodTypes (.inClass p c) c ctx m).sameElements t.typeSet = true := by
  intro h q p m c ctx
  have hq : boundParam? m p.name = some q := rfl
  have hb : h.IsBasic := ⟨by decide +kernel, by decide +kernel⟩
  have hthis : q.name ≠ "this".toList := by decide
  have hrooted : ∀ x ∈ h.classes, unrooted x.1 = x.1 := by decide +kernel
  have hnull : ∃ w ∈ h.words, lower w = "null".toList := by decide +kernel
  obtain ⟨t, ht, hiff⟩ := sameElements_methodTypes_iff ctx c hq rfl rfl hb hthis
  exact ⟨hq, hb, rfl, hthis, by decide +kernel, t, ht, hiff.mpr ⟨rfl, hrooted, fun _ => .inr hnull⟩⟩

/-- Any number of strings is an array of strings to the variable and a string to the property. -/
theorem not_sameElements_methodTypes_variadic :
    let h : TypeHint := .word "string"
    let q : Param := ⟨"names", some h, none, true⟩
    let p : Property := { name := "names" }
    let m : Method := { name := "__construct", params := [q]
                        body := [.assignThis "names" (.var "names")] }
    let c : ClassLike := { name := some "App\\Registry", members := [.property p, .method m] }
    let ctx : InferenceContext := ⟨.syntactic, default⟩
    boundParam? m p.name = some q ∧ h.IsBasic ∧
      (methodTypes (.inClass p c) c ctx m).names = ["string".toList] ∧
      ∃ t, TypeOracle.syntactic (.var q.name) ⟨some c, some m⟩ = some t ∧
        t.canonical.toList = ["string[]".toList] ∧
        (methodTypes (.inClass p c) c ctx m).sameElements t.typeSet = false := by
  intro h q p m c ctx
  have hb : h.IsBasic := ⟨by decide +kernel, by decide +kernel⟩
  exact ⟨rfl, hb, by decide +kernel, _, rfl, by decide +kernel, by decide +kernel⟩

end Strategy
end DocTypes
