import DocTypes.Inference.Inferer
import Mathlib.Data.List.Forall2

/-!
What inference looks at: the names, parameters and bodies of methods, which of them set up an
instance, and what the oracle tells. Doc comments count only through the last two.
-/
namespace DocTypes

/-- Lists that look the same, element by element. -/
lemma map_eq_map_iff_forall₂ {α β γ : Type} {f : α → γ} {g : β → γ} {xs : List α} {ys : List β} :
    xs.map f = ys.map g ↔ List.Forall₂ (fun x y => f x = g y) xs ys := by
  rw [← List.forall₂_eq_eq_eq, List.forall₂_map_left_iff, List.forall₂_map_right_iff]

lemma OrderedSet.mem_foldl_insertAll {α β : Type} [DecidableEq α] {f : β → List α} {xs : List β}
    {start : OrderedSet α} {a : α} :
    a ∈ xs.foldl (fun s x => s.insertAll (f x)) start ↔ a ∈ start ∨ ∃ x ∈ xs, a ∈ f x := by
  induction xs generalizing start with
  | nil => simp
  | cons x xs ih =>
    rw [List.foldl_cons, ih, mem_insertAll]
    simp [or_assoc]

/-- The names from parameters are those that the methods that set up an instance give. -/
lemma Strategy.mem_infer_constructorParam {ctx : InferenceContext} {c : ClassLike} {p : Property}
    {n : TypeName} : n ∈ constructorParam.infer (.inClass p c) ctx ↔ ∃ m ∈ c.methods,
      isInstantiating ctx.options m = true ∧ n ∈ methodTypes (.inClass p c) c ctx m := by
  change n ∈ (c.methods.filter (isInstantiating ctx.options)).foldl
    (fun (s : TypeSet) m => s.insertAll (methodTypes (.inClass p c) c ctx m).toList) ∅ ↔ _
  rw [OrderedSet.mem_foldl_insertAll]
  simp [and_assoc]

/-! What one method tells. -/

namespace Strategy

/-- A bare `array` is replaced, and all else is kept. -/
lemma mem_refineNames {refined : TypeSet} {names : List TypeName} {n : TypeName} :
    n ∈ refineNames refined names ↔ (n ∈ names ∧ n.text ≠ "array".toList) ∨
      (n ∈ refined ∧ ∃ a ∈ names, a.text = "array".toList) := by
  have hstep : (fun (s : TypeSet) (a : TypeName) =>
      if a.text = "array".toList then s.insertAll refined.toList else s.insert a) =
        fun s a => s.insertAll (if a.text = "array".toList then refined.toList else [a]) := by
    funext s a
    split <;> rfl
  rw [refineNames, hstep, OrderedSet.mem_foldl_insertAll, or_iff_right (OrderedSet.notMem_empty n)]
  constructor
  · rintro ⟨a, ha, hn⟩
    split at hn
    · exact .inr ⟨hn, a, ha, ‹_›⟩
    · obtain rfl := List.mem_singleton.mp hn
      exact .inl ⟨ha, ‹_›⟩
  · rintro (⟨hn, htext⟩ | ⟨hn, a, ha, htext⟩)
    · exact ⟨n, hn, by rw [if_neg htext]; exact List.mem_singleton_self n⟩
    · exact ⟨a, ha, by rw [if_pos htext]; exact hn⟩

variable {f : Field} {c : ClassLike} {ctx : InferenceContext} {m : Method} {q : Param}

lemma methodTypes_of_unbound (hq : boundParam? m f.property.name = none) :
    methodTypes f c ctx m = ∅ := by
  rw [methodTypes, hq]

lemma methodTypes_of_untyped (hq : boundParam? m f.property.name = some q) (hh : q.hint = none) :
    methodTypes f c ctx m = evidenceTypes
      (evidenceInMethod ctx.oracle f.property.name (some c) m) f.property.defaultValue := by
  rw [methodTypes, hq]
  simp only [hh]

/-- A declared parameter tells its names, what is known of an array among them, and null. -/
theorem mem_methodTypes_of_hint {h : TypeHint} (hq : boundParam? m f.property.name = some q)
    (hh : q.hint = some h) {n : TypeName} : n ∈ methodTypes f c ctx m ↔
      (n ∈ hintNames h ∧ n.text ≠ "array".toList) ∨
      (n ∈ refinedArray (evidenceInMethod ctx.oracle f.property.name (some c) m) ∧
        ∃ a ∈ hintNames h, a.text = "array".toList) ∨
      (isNullable ctx c m q ∧ n = .plain "null") := by
  have hnames : n ∈ refineNames
      (refinedArray (evidenceInMethod ctx.oracle f.property.name (some c) m))
        (hintTypeSet h).toList ↔ (n ∈ hintNames h ∧ n.text ≠ "array".toList) ∨
      (n ∈ refinedArray (evidenceInMethod ctx.oracle f.property.name (some c) m) ∧
        ∃ a ∈ hintNames h, a.text = "array".toList) := by
    simp [mem_refineNames, hintTypeSet]
  rw [← or_assoc, ← hnames, methodTypes, hq]
  simp only [hh]
  cases isNullable ctx c m q with
  | true => simp
  | false => simp

end Strategy

/-! Classes whose methods give the same evidence. -/

/-- Inference cannot tell the one method in its class from the other in its own. -/
structure Method.SameEvidence (ctx : InferenceContext) (c c' : ClassLike) (m m' : Method) :
    Prop where
  params : m.params = m'.params
  body : m.body = m'.body
  instantiating : Strategy.isInstantiating ctx.options m = Strategy.isInstantiating ctx.options m'
  types : ∀ e, ctx.oracle e ⟨some c, some m⟩ = ctx.oracle e ⟨some c', some m'⟩

section
variable {ctx : InferenceContext} {c c' : ClassLike} {m m' : Method} {p p' : Property}

lemma assignedTypes_congr (h : m.SameEvidence ctx c c' m') (name : Text) :
    assignedTypes ctx.oracle name (some c) m = assignedTypes ctx.oracle name (some c') m' := by
  rw [assignedTypes, assignedTypes, h.body]
  refine List.filterMap_congr fun a _ => ?_
  rw [PropertyAssign.type?, PropertyAssign.type?, h.types]

lemma boundParam?_congr (h : m.SameEvidence ctx c c' m') (name : Text) :
    boundParam? m name = boundParam? m' name := by
  have hparam : m.param? = m'.param? := funext fun name => by
    rw [Method.param?, Method.param?, h.params]
  have hassign : PropertyAssign.param? m = PropertyAssign.param? m' := funext fun a => by
    rw [PropertyAssign.param?, PropertyAssign.param?, hparam]
  rw [boundParam?, boundParam?, h.body, hassign]

variable (hname : p.name = p'.name) (hdefault : p.defaultValue = p'.defaultValue)
include hname hdefault

namespace Strategy

lemma methodTypes_congr (h : m.SameEvidence ctx c c' m') :
    methodTypes (.inClass p c) c ctx m = methodTypes (.inClass p' c') c' ctx m' := by
  have hnull : ∀ q, isNullable ctx c m q = isNullable ctx c' m' q := fun q => by
    simp only [isNullable, h.types]
  have hevidence : evidenceInMethod ctx.oracle p'.name (some c) m =
      evidenceInMethod ctx.oracle p'.name (some c') m' :=
    congrArg OrderedSet.ofList (assignedTypes_congr h p'.name)
  simp only [methodTypes, Field.inClass, hevidence, hnull, hdefault, hname, boundParam?_congr h]

variable (h : List.Forall₂ (Method.SameEvidence ctx c c') c.methods c'.methods)
include h

lemma infer_allAssign_congr :
    allAssign.infer (.inClass p c) ctx = allAssign.infer (.inClass p' c') ctx := by
  have htypes : ∀ {ms ms' : List Method}, List.Forall₂ (Method.SameEvidence ctx c c') ms ms' →
      ms.flatMap (assignedTypes ctx.oracle p'.name (some c)) =
        ms'.flatMap (assignedTypes ctx.oracle p'.name (some c')) := by
    intro ms ms' h
    induction h with
    | nil => rfl
    | cons hm _ ih => rw [List.flatMap_cons, List.flatMap_cons, assignedTypes_congr hm, ih]
  change evidenceTypes (evidenceInClass ctx.oracle p.name c) p.defaultValue =
    evidenceTypes (evidenceInClass ctx.oracle p'.name c') p'.defaultValue
  rw [evidenceInClass, evidenceInClass, hname, hdefault, htypes h]

lemma infer_constructorParam_congr :
    constructorParam.infer (.inClass p c) ctx = constructorParam.infer (.inClass p' c') ctx := by
  have hfold : ∀ {ms ms' : List Method}, List.Forall₂ (Method.SameEvidence ctx c c') ms ms' →
      ∀ types : TypeSet, (ms.filter (isInstantiating ctx.options)).foldl
          (fun s m => s.insertAll (methodTypes (.inClass p c) c ctx m).toList) types =
        (ms'.filter (isInstantiating ctx.options)).foldl
          (fun s m => s.insertAll (methodTypes (.inClass p' c') c' ctx m).toList) types := by
    intro ms ms' h
    induction h with
    | nil => exact fun _ => rfl
    | @cons m m' ms ms' hm _ ih =>
      intro types
      rw [List.filter_cons, List.filter_cons, hm.instantiating]
      cases isInstantiating ctx.options m' with
      | true =>
        simp only [if_true, List.foldl_cons]
        rw [methodTypes_congr hname hdefault hm, ih]
      | false =>
        simp only [Bool.false_eq_true, if_false]
        exact ih types
  exact hfold h ∅

lemma infer_ofKind_congr (kind : StrategyKind) :
    (ofKind kind).infer (.inClass p c) ctx = (ofKind kind).infer (.inClass p' c') ctx := by
  cases kind with
  | constructorParam => exact infer_constructorParam_congr hname hdefault h
  | allAssign => exact infer_allAssign_congr hname hdefault h

end Strategy
end

namespace Inferer

lemma mem_place {s t : Strategy} {ss : List Strategy} : t ∈ place s ss ↔ t = s ∨ t ∈ ss := by
  induction ss with
  | nil => simp [place]
  | cons u us ih =>
    rw [place]
    split
    · simp
    · simp only [List.mem_cons, ih]
      tauto

lemma exists_kind {o : InferenceOptions} {s : Strategy} (hs : s ∈ (ofOptions o).strategies) :
    ∃ kind ∈ o.strategies, s = .ofKind kind := by
  have key : ∀ kinds : List StrategyKind, s ∈ (kinds.map Strategy.ofKind).foldr place [] →
      ∃ kind ∈ kinds, s = .ofKind kind := by
    intro kinds
    induction kinds with
    | nil => simp
    | cons k ks ih =>
      intro h
      rcases mem_place.mp h with rfl | h
      · exact ⟨k, by simp, rfl⟩
      · obtain ⟨kind, hkind, rfl⟩ := ih h
        exact ⟨kind, List.mem_cons_of_mem k hkind, rfl⟩
  exact key _ hs

/-- Strategies that find the same give the same answer. -/
lemma firstAnswer_of_infer_eq {f f' : Field} {ctx ctx' : InferenceContext} {ss : List Strategy}
    (h : ∀ s ∈ ss, s.infer f ctx = s.infer f' ctx') : firstAnswer f ctx ss = firstAnswer f' ctx' ss := by
  induction ss with
  | nil => rfl
  | cons s ss ih =>
    obtain ⟨hs, hss⟩ := List.forall_mem_cons.mp h
    rw [firstAnswer, firstAnswer, hs, ih hss]

/-- The types of a property do not change with anything but the evidence. -/
theorem inferIn_congr (o : InferenceOptions) {ctx : InferenceContext} {c c' : ClassLike}
    {p p' : Property} (hname : p.name = p'.name) (hdefault : p.defaultValue = p'.defaultValue)
    (h : List.Forall₂ (Method.SameEvidence ctx c c') c.methods c'.methods) :
    (ofOptions o).inferIn p c ctx = (ofOptions o).inferIn p' c' ctx := by
  refine firstAnswer_of_infer_eq fun s hs => ?_
  obtain ⟨kind, -, rfl⟩ := exists_kind hs
  exact Strategy.infer_ofKind_congr hname hdefault h kind

end Inferer

/-! Comments of properties. -/

/-- The property without the text of its comment. -/
def Property.withoutComment (p : Property) : Property := { p with doc := { p.doc with text := none } }

def Member.withoutPropertyComment : Member → Member
  | .property p => .property p.withoutComment
  | .method m => .method m

/-- All of the class but the comments of its properties. -/
def ClassLike.withoutPropertyComments (c : ClassLike) : ClassLike :=
  { c with members := c.members.map .withoutPropertyComment }

/-- What the oracle tells does not depend on the comments of properties. -/
def TypeOracle.IsBlind (oracle : TypeOracle) : Prop :=
  ∀ e (c c' : ClassLike) m, c.withoutPropertyComments = c'.withoutPropertyComments →
    oracle e ⟨some c, m⟩ = oracle e ⟨some c', m⟩

namespace ClassLike

lemma properties_withoutPropertyComments (c : ClassLike) :
    c.withoutPropertyComments.properties = c.properties.map .withoutComment := by
  rw [properties, properties, withoutPropertyComments, List.filterMap_map, List.map_filterMap]
  refine List.filterMap_congr fun m _ => ?_
  cases m <;> rfl

lemma methods_withoutPropertyComments (c : ClassLike) :
    c.withoutPropertyComments.methods = c.methods := by
  rw [methods, methods, withoutPropertyComments, List.filterMap_map]
  refine List.filterMap_congr fun m _ => ?_
  cases m <;> rfl

/-- Without comments of properties inference finds the same types. -/
theorem inferIn_of_withoutPropertyComments (o : InferenceOptions) {ctx : InferenceContext}
    (hblind : ctx.oracle.IsBlind) {c c' : ClassLike}
    (h : c.withoutPropertyComments = c'.withoutPropertyComments) {p p' : Property}
    (hp : p.withoutComment = p'.withoutComment) :
    (Inferer.ofOptions o).inferIn p c ctx = (Inferer.ofOptions o).inferIn p' c' ctx := by
  have hmethods : c.methods = c'.methods := by
    rw [← methods_withoutPropertyComments, h, methods_withoutPropertyComments]
  have hname : p.withoutComment.name = p'.withoutComment.name := by rw [hp]
  have hdefault : p.withoutComment.defaultValue = p'.withoutComment.defaultValue := by rw [hp]
  refine Inferer.inferIn_congr o hname hdefault ?_
  rw [hmethods, List.forall₂_same]
  exact fun m _ => ⟨rfl, rfl, rfl, fun e => hblind e c c' (some m) h⟩

end ClassLike
/-! The syntax alone. -/

/-- The class has the same name, the parameters are the same, and properties are declared alike. -/
structure ExprScope.SameDeclarations (scope scope' : ExprScope) : Prop where
  className : scope.owner.bind (·.name) = scope'.owner.bind (·.name)
  param : ∀ name, scope.method.bind (·.param? name) = scope'.method.bind (·.param? name)
  hint : ∀ name, (scope.owner.bind (·.property? name)).bind (·.hint) =
    (scope'.owner.bind (·.property? name)).bind (·.hint)

namespace TypeOracle

section
variable {scope scope' : ExprScope}

lemma ownType?_congr (h : scope.SameDeclarations scope') : ownType? scope.owner = ownType? scope'.owner := by
  rw [ownType?, ownType?, h.className]

mutual

lemma hintType?_congr (h : scope.SameDeclarations scope') :
    (t : TypeHint) → hintType? scope.owner t = hintType? scope'.owner t
  | .word w => by rw [hintType?, hintType?, wordType?, wordType?, ownType?_congr h]
  | .named _ _ => rfl
  | .nullable t => by rw [hintType?, hintType?, hintType?_congr h t]
  | .union ts => by rw [hintType?, hintType?, hintTypes?_congr h ts]

lemma hintTypes?_congr (h : scope.SameDeclarations scope') :
    (ts : List TypeHint) → hintTypes? scope.owner ts = hintTypes? scope'.owner ts
  | [] => rfl
  | t :: ts => by rw [hintTypes?, hintTypes?, hintType?_congr h t, hintTypes?_congr h ts]

end

lemma varType?_congr (h : scope.SameDeclarations scope') (name : Text) :
    varType? scope name = varType? scope' name := by
  rw [varType?, varType?, ownType?_congr h, h.param]
  simp only [hintType?_congr h]

lemma propertyType?_eq (scope : ExprScope) (name : Text) : propertyType? scope name =
    ((scope.owner.bind (·.property? name)).bind (·.hint)).bind (hintType? scope.owner) := by
  rw [Option.bind_assoc]
  rfl

lemma propertyType?_congr (h : scope.SameDeclarations scope') (name : Text) :
    propertyType? scope name = propertyType? scope' name := by
  rw [propertyType?_eq, propertyType?_eq, h.hint, funext (hintType?_congr h)]

mutual

/-- The type read off an expression depends on declarations only. -/
theorem typeOf?_congr (h : scope.SameDeclarations scope') :
    (e : Expr) → typeOf? scope e = typeOf? scope' e
  | .literal (.int _) => rfl
  | .literal .float => rfl
  | .literal (.string _) => rfl
  | .constant _ => rfl
  | .array items => by rw [typeOf?, typeOf?, itemTypes?_congr h items]
  | .create _ _ => by rw [typeOf?, typeOf?, classType?, classType?, ownType?_congr h]
  | .var name => by rw [typeOf?, typeOf?, varType?_congr h]
  | .property _ name => by rw [typeOf?, typeOf?, propertyType?_congr h]
  | .staticProperty _ name => by rw [typeOf?, typeOf?, propertyType?_congr h]
  | .closure _ _ => rfl
  | .assign _ value => by rw [typeOf?, typeOf?, typeOf?_congr h value]
  | .ternary condition none onFalse => by
    rw [typeOf?, typeOf?, typeOf?_congr h condition, typeOf?_congr h onFalse]
  | .ternary _ (some onTrue) onFalse => by
    rw [typeOf?, typeOf?, typeOf?_congr h onTrue, typeOf?_congr h onFalse]
  | .element _ _ => rfl
  | .methodCall _ _ _ => rfl
  | .staticCall _ _ _ => rfl
  | .functionCall _ _ => rfl
  | .unknown => rfl

theorem itemTypes?_congr (h : scope.SameDeclarations scope') :
    (es : List Expr) → itemTypes? scope es = itemTypes? scope' es
  | [] => rfl
  | e :: es => by rw [itemTypes?, itemTypes?, typeOf?_congr h e, itemTypes?_congr h es]

end
end

/-- Properties of one declaration, in classes that differ in comments only, are declared alike. -/
lemma hint_property?_congr {c c' : ClassLike} {f : Property → Property}
    (hname : ∀ p, (f p).name = p.name) (hhint : ∀ p, (f p).hint = p.hint)
    (h : c.properties.map f = c'.properties.map f) (name : Text) :
    (c.property? name).bind (·.hint) = (c'.property? name).bind (·.hint) := by
  have key : ∀ c : ClassLike, (c.property? name).bind (·.hint) =
      ((c.properties.map f).find? (·.name == name)).bind (·.hint) := by
    intro c
    have hcomp : ((fun p : Property => p.name == name) ∘ f) = (·.name == name) :=
      funext fun p => by simp [hname]
    rw [ClassLike.property?, List.find?_map, hcomp]
    cases c.properties.find? (·.name == name) with
    | none => rfl
    | some p => simp [hhint]
  rw [key, key, h]

/-- The oracle that has nothing to go by but the syntax reads no comments. -/
theorem isBlind_syntactic : syntactic.IsBlind := by
  intro e c c' m h
  have hname : c.withoutPropertyComments.name = c'.withoutPropertyComments.name := by rw [h]
  have hdeclared : ExprScope.SameDeclarations ⟨some c, m⟩ ⟨some c', m⟩ := by
    refine ⟨hname, fun _ => rfl, fun name => ?_⟩
    refine hint_property?_congr (f := .withoutComment) (fun _ => rfl) (fun _ => rfl) ?_ name
    rw [← ClassLike.properties_withoutPropertyComments, h,
      ClassLike.properties_withoutPropertyComments]
  exact typeOf?_congr hdeclared e

end TypeOracle

/-! Comments of all kinds. -/

def Property.withoutDoc (p : Property) : Property := { p with doc := default }

def Method.withoutDoc (m : Method) : Method := { m with doc := default }

/-- All of the class but comments and scopes. -/
def ClassLike.withoutDocs (c : ClassLike) : ClassLike :=
  { c with doc := default, members := c.members.map (·.withDoc default) }

namespace ClassLike

lemma properties_withoutDocs (c : ClassLike) :
    c.withoutDocs.properties = c.properties.map .withoutDoc := by
  rw [properties, properties, withoutDocs, List.filterMap_map, List.map_filterMap]
  refine List.filterMap_congr fun m _ => ?_
  cases m <;> rfl

lemma methods_withoutDocs (c : ClassLike) :
    c.withoutDocs.methods = c.methods.map .withoutDoc := by
  rw [methods, methods, withoutDocs, List.filterMap_map, List.map_filterMap]
  refine List.filterMap_congr fun m _ => ?_
  cases m <;> rfl

/-- From the syntax alone the same types are found whatever the comments, if the same methods set up
an instance. -/
theorem inferIn_of_withoutDocs (o : InferenceOptions) {c c' : ClassLike}
    (h : c.withoutDocs = c'.withoutDocs)
    (hinst : c.methods.map (Strategy.isInstantiating o) =
      c'.methods.map (Strategy.isInstantiating o)) {p p' : Property}
    (hp : p.withoutDoc = p'.withoutDoc) :
    (Inferer.ofOptions o).inferIn p c ⟨.syntactic, o⟩ =
      (Inferer.ofOptions o).inferIn p' c' ⟨.syntactic, o⟩ := by
  have hname : p.withoutDoc.name = p'.withoutDoc.name := by rw [hp]
  have hdefault : p.withoutDoc.defaultValue = p'.withoutDoc.defaultValue := by rw [hp]
  have hclass : c.withoutDocs.name = c'.withoutDocs.name := by rw [h]
  have hproperties : c.properties.map Property.withoutDoc = c'.properties.map .withoutDoc := by
    rw [← properties_withoutDocs, h, properties_withoutDocs]
  have hmethods : c.methods.map Method.withoutDoc = c'.methods.map .withoutDoc := by
    rw [← methods_withoutDocs, h, methods_withoutDocs]
  rw [map_eq_map_iff_forall₂, List.forall₂_iff_zip] at hmethods hinst
  refine Inferer.inferIn_congr o hname hdefault (List.forall₂_iff_zip.mpr ⟨hinst.1, ?_⟩)
  intro m m' hm
  have hsame := hmethods.2 hm
  have hparams : m.withoutDoc.params = m'.withoutDoc.params := by rw [hsame]
  have hbody : m.withoutDoc.body = m'.withoutDoc.body := by rw [hsame]
  have hdeclared : ExprScope.SameDeclarations ⟨some c, some m⟩ ⟨some c', some m'⟩ := by
    refine ⟨hclass, fun name => ?_, ?_⟩
    · exact congrArg (fun ps : List Param => ps.find? (·.name == name)) hparams
    · exact TypeOracle.hint_property?_congr (f := .withoutDoc) (fun _ => rfl) (fun _ => rfl)
        hproperties
  exact ⟨hparams, hbody, hinst.2 hm, TypeOracle.typeOf?_congr hdeclared⟩

end ClassLike
end DocTypes
