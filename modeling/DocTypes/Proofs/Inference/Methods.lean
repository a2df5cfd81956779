import DocTypes.Proofs.Inference.Blindness
import DocTypes.Proofs.StaticType.Order
import DocTypes.Proofs.Syntax.Visits

/-!
The methods that count. For a property these are the methods that assign to it: neither their order
nor the methods around them make a difference to the types that are found.
-/
namespace DocTypes

/-! Sets with the same elements. -/

namespace OrderedSet

variable {α : Type} [DecidableEq α] {s t : OrderedSet α}

omit [DecidableEq α] in
lemma isEmpty_congr (h : ∀ a, a ∈ s ↔ a ∈ t) : s.isEmpty = t.isEmpty := by
  rw [Bool.eq_iff_iff, isEmpty_iff, isEmpty_iff]
  simp only [h]

lemma sameElements_of_mem_iff (h : ∀ a, a ∈ s ↔ a ∈ t) : s.sameElements t = true := by
  have hperm : s.toList.Perm t.toList := (List.perm_ext_iff_of_nodup s.nodup t.nodup).mpr h
  have hall : s.toList.all (· ∈ t.toList) = true :=
    List.all_eq_true.mpr fun a ha => decide_eq_true ((h a).mp ha)
  rw [sameElements, size, size, hperm.length_eq, hall, beq_self_eq_true, Bool.and_self]

lemma sameElements_iff : s.sameElements t = true ↔ ∀ a, a ∈ s ↔ a ∈ t := by
  refine ⟨fun h => ?_, sameElements_of_mem_iff⟩
  rw [sameElements, Bool.and_eq_true, beq_iff_eq, List.all_eq_true] at h
  obtain ⟨hsize, hall⟩ := h
  have hsub : s.toList ⊆ t.toList := fun a ha => of_decide_eq_true (hall a ha)
  have hperm := (List.subperm_of_subset s.nodup hsub).perm_of_length_le (le_of_eq hsize.symm)
  exact fun a => hperm.mem_iff

end OrderedSet

/-- What evidence amounts to depends on what there is, and not on the order. -/
lemma evidenceTypes_congr {evidence evidence' : OrderedSet StaticType}
    (h : ∀ t, t ∈ evidence ↔ t ∈ evidence') (defaultValue : Option Expr) :
    evidenceTypes evidence defaultValue = evidenceTypes evidence' defaultValue := by
  have hmembers : ∀ start : List StaticType,
      StaticType.intersectionOf (evidence.toList ++ start) =
        StaticType.intersectionOf (evidence'.toList ++ start) := fun start =>
    congrArg StaticType.intersection
      (StaticType.memberSet_congr fun t => by simp [h])
  rw [evidenceTypes, evidenceTypes, OrderedSet.isEmpty_congr h]
  dsimp only
  rw [hmembers]

/-! Methods that assign to a property. -/

namespace ClassLike

/-- All of the class but its methods. -/
def withoutMethods (c : ClassLike) : ClassLike :=
  { c with members := c.members.filter (·.method?.isNone) }

/-- The methods that assign to the property or to an element of it. -/
def assigning (name : Text) (c : ClassLike) : List Method :=
  c.methods.filter fun m => !(assignments name m.body).isEmpty

lemma properties_withoutMethods (c : ClassLike) : c.withoutMethods.properties = c.properties := by
  rw [properties, properties, withoutMethods, List.filterMap_filter]
  refine List.filterMap_congr fun m _ => ?_
  cases m <;> rfl

lemma mem_assigning {name : Text} {c : ClassLike} {m : Method} :
    m ∈ c.assigning name ↔ m ∈ c.methods ∧ assignments name m.body ≠ [] := by
  simp [assigning]

/-- The classes differ in their methods only, and have the same ones that assign to the property, in
whatever order and among whatever others. -/
structure SameAssigning (name : Text) (c c' : ClassLike) : Prop where
  others : c.withoutMethods = c'.withoutMethods
  assigning : ∀ m, m ∈ c.assigning name ↔ m ∈ c'.assigning name

lemma SameAssigning.symm {name : Text} {c c' : ClassLike} (h : SameAssigning name c c') :
    SameAssigning name c' c := ⟨h.others.symm, fun m => (h.assigning m).symm⟩

end ClassLike

/-- What the oracle tells within a method does not depend on the other methods of the class. -/
def TypeOracle.IsLocal (oracle : TypeOracle) : Prop :=
  ∀ e (c c' : ClassLike) m, c.withoutMethods = c'.withoutMethods → m ∈ c.methods →
    m ∈ c'.methods → oracle e ⟨some c, some m⟩ = oracle e ⟨some c', some m⟩

/-- The syntax of a method and the declarations of properties are all that is looked at. -/
lemma TypeOracle.isLocal_syntactic : syntactic.IsLocal := by
  intro e c c' m h _ _
  have hname : c.withoutMethods.name = c'.withoutMethods.name := by rw [h]
  have hproperties : c.properties = c'.properties := by
    rw [← ClassLike.properties_withoutMethods, h, ClassLike.properties_withoutMethods]
  have hdeclared : ExprScope.SameDeclarations ⟨some c, some m⟩ ⟨some c', some m⟩ := by
    refine ⟨hname, fun _ => rfl, fun name => ?_⟩
    change (c.property? name).bind _ = (c'.property? name).bind _
    rw [ClassLike.property?, ClassLike.property?, hproperties]
  exact typeOf?_congr hdeclared e

section
variable {ctx : InferenceContext} {c c' : ClassLike} {p : Property} {m : Method}

/-- A method that tells a type assigns to the property. -/
lemma mem_assigning_of_mem_assignedTypes {name : Text} {t : StaticType} (hm : m ∈ c.methods)
    (ht : t ∈ assignedTypes ctx.oracle name (some c) m) : m ∈ c.assigning name := by
  obtain ⟨a, ha, -⟩ := List.mem_filterMap.mp ht
  exact ClassLike.mem_assigning.mpr ⟨hm, List.ne_nil_of_mem ha⟩

lemma mem_assigning_of_mem_methodTypes {n : TypeName} (hm : m ∈ c.methods)
    (hn : n ∈ Strategy.methodTypes (.inClass p c) c ctx m) : m ∈ c.assigning p.name := by
  refine ClassLike.mem_assigning.mpr ⟨hm, fun hnone => ?_⟩
  have hbound : boundParam? m (Field.inClass p c).property.name = none := by
    rw [boundParam?_eq]
    change List.findSome? _ (assignments p.name m.body) = none
    rw [hnone]
    rfl
  rw [Strategy.methodTypes_of_unbound hbound] at hn
  exact OrderedSet.notMem_empty n hn

/-- A method that assigns to the property tells the same in either class. -/
lemma sameEvidence_of_mem_assigning (hlocal : ctx.oracle.IsLocal)
    (h : ClassLike.SameAssigning p.name c c') (hm : m ∈ c.assigning p.name) :
    m ∈ c'.methods ∧ m.SameEvidence ctx c c' m := by
  have hm' := (ClassLike.mem_assigning.mp ((h.assigning m).mp hm)).1
  exact ⟨hm', rfl, rfl, rfl, fun e =>
    hlocal e c c' m h.others (ClassLike.mem_assigning.mp hm).1 hm'⟩

lemma mem_evidenceInClass_of (hlocal : ctx.oracle.IsLocal)
    (h : ClassLike.SameAssigning p.name c c') {t : StaticType}
    (ht : t ∈ evidenceInClass ctx.oracle p.name c) :
    t ∈ evidenceInClass ctx.oracle p.name c' := by
  rw [evidenceInClass, OrderedSet.mem_ofList, List.mem_flatMap] at ht ⊢
  obtain ⟨m, hm, ht⟩ := ht
  obtain ⟨hm', hsame⟩ :=
    sameEvidence_of_mem_assigning hlocal h (mem_assigning_of_mem_assignedTypes hm ht)
  exact ⟨m, hm', by rwa [← assignedTypes_congr hsame]⟩

lemma mem_infer_constructorParam_of (hlocal : ctx.oracle.IsLocal)
    (h : ClassLike.SameAssigning p.name c c') {n : TypeName}
    (hn : n ∈ Strategy.constructorParam.infer (.inClass p c) ctx) :
    n ∈ Strategy.constructorParam.infer (.inClass p c') ctx := by
  rw [Strategy.mem_infer_constructorParam] at hn ⊢
  obtain ⟨m, hm, hinst, hn⟩ := hn
  obtain ⟨hm', hsame⟩ :=
    sameEvidence_of_mem_assigning hlocal h (mem_assigning_of_mem_methodTypes hm hn)
  exact ⟨m, hm', hinst, by rwa [← Strategy.methodTypes_congr rfl rfl hsame]⟩

/-! Both strategies. -/

variable (hlocal : ctx.oracle.IsLocal) (h : ClassLike.SameAssigning p.name c c')
include hlocal h

lemma infer_allAssign_of_sameAssigning :
    Strategy.allAssign.infer (.inClass p c) ctx = Strategy.allAssign.infer (.inClass p c') ctx :=
  evidenceTypes_congr
    (fun _ => ⟨mem_evidenceInClass_of hlocal h, mem_evidenceInClass_of hlocal h.symm⟩) _

lemma mem_infer_iff_of_sameAssigning (kind : StrategyKind) (n : TypeName) :
    n ∈ (Strategy.ofKind kind).infer (.inClass p c) ctx ↔
      n ∈ (Strategy.ofKind kind).infer (.inClass p c') ctx := by
  cases kind with
  | constructorParam =>
    exact ⟨mem_infer_constructorParam_of hlocal h, mem_infer_constructorParam_of hlocal h.symm⟩
  | allAssign =>
    change n ∈ Strategy.allAssign.infer (.inClass p c) ctx ↔
      n ∈ Strategy.allAssign.infer (.inClass p c') ctx
    rw [infer_allAssign_of_sameAssigning hlocal h]

/-- The first answer comes from the same strategy in both classes, since the same answers are empty. If
it is not the one from parameters, it is in the same order. -/
lemma firstAnswer_of_sameAssigning {kinds : List StrategyKind} {ss : List Strategy}
    (hss : ∀ s ∈ ss, ∃ kind ∈ kinds, s = .ofKind kind) :
    (∀ n, n ∈ Inferer.firstAnswer (.inClass p c) ctx ss ↔
        n ∈ Inferer.firstAnswer (.inClass p c') ctx ss) ∧
      (StrategyKind.constructorParam ∉ kinds ∨
        (Strategy.constructorParam.infer (.inClass p c) ctx).isEmpty = true →
        Inferer.firstAnswer (.inClass p c) ctx ss =
          Inferer.firstAnswer (.inClass p c') ctx ss) := by
  induction ss with
  | nil => exact ⟨fun _ => Iff.rfl, fun _ => rfl⟩
  | cons s ss ih =>
    rw [List.forall_mem_cons] at hss
    obtain ⟨⟨kind, hkind, rfl⟩, hss⟩ := hss
    obtain ⟨hmem, heq⟩ := ih hss
    have hanswer := mem_infer_iff_of_sameAssigning hlocal h kind
    have hempty := OrderedSet.isEmpty_congr hanswer
    rw [Inferer.firstAnswer, Inferer.firstAnswer, ← hempty]
    cases hfirst : ((Strategy.ofKind kind).infer (.inClass p c) ctx).isEmpty with
    | true => exact ⟨hmem, heq⟩
    | false =>
      refine ⟨hanswer, fun hparam => ?_⟩
      cases kind with
      | allAssign => exact infer_allAssign_of_sameAssigning hlocal h
      | constructorParam =>
        rcases hparam with hparam | hparam
        · exact absurd hkind hparam
        · rw [Strategy.ofKind, hparam] at hfirst
          cases hfirst

end

/-- Inference looks at the methods that assign to the property, in whatever order they stand and
whatever other methods there are: the same types are found, and in the same order unless they come
from parameters. The oracle that has the syntax alone is one of those for which this holds. -/
theorem infer_of_sameAssigning :
    TypeOracle.syntactic.IsLocal ∧
      ∀ (o : InferenceOptions) (ctx : InferenceContext) (p : Property) (c c' : ClassLike),
        ctx.oracle.IsLocal → c.withoutMethods = c'.withoutMethods →
        (∀ m, m ∈ c.assigning p.name ↔ m ∈ c'.assigning p.name) →
        ∃ types types',
          (Inferer.ofOptions o).infer (.inClass p c) ctx = .ok types ∧
          (Inferer.ofOptions o).infer (.inClass p c') ctx = .ok types' ∧
          types.sameElements types' = true ∧
          (StrategyKind.constructorParam ∉ o.strategies ∨
            (Strategy.constructorParam.infer (.inClass p c) ctx).isEmpty = true →
            types = types') := by
  refine ⟨TypeOracle.isLocal_syntactic, fun o ctx p c c' hlocal hothers hassigning => ?_⟩
  have hstrategies : ∀ s ∈ (Inferer.ofOptions o).strategies, ∃ kind ∈ o.strategies,
      s = .ofKind kind := fun s hs => Inferer.exists_kind hs
  obtain ⟨hmem, heq⟩ := firstAnswer_of_sameAssigning hlocal ⟨hothers, hassigning⟩ hstrategies
  exact ⟨_, _, rfl, rfl, OrderedSet.sameElements_of_mem_iff hmem, heq⟩

/-- Two methods that set a property up, one behind the other, and the other way round with a method
between them. -/
theorem infer_setters_in_either_order :
    let log : Property := { name := "log" }
    let construct : Method := { name := "__construct"
                                params := [⟨"file", some (.ofClass "FileLog"), none, false⟩]
                                body := [.assignThis "log" (.var "file")] }
    let setUp : Method := { name := "setUp"
                            params := [⟨"null", some (.ofClass "NullLog"), none, false⟩]
                            body := [.assignThis "log" (.var "null")] }
    let run : Method := { name := "run", body := [.assignThis "count" (.literal (.int 1))] }
    let c : ClassLike := { name := some "Task"
                           members := [.property log, .method construct, .method setUp] }
    let c' : ClassLike := { name := some "Task"
                            members := [.method setUp, .method run, .property log,
                              .method construct] }
    let ctx : InferenceContext := ⟨.syntactic, default⟩
    let assigned : InferenceOptions := { strategies := [.allAssign] }
    (∃ types types',
      (Inferer.ofOptions default).infer (.inClass log c) ctx = .ok types ∧
      (Inferer.ofOptions default).infer (.inClass log c') ctx = .ok types' ∧
      types.names = ["\\FileLog".toList, "\\NullLog".toList] ∧
      types'.names = ["\\NullLog".toList, "\\FileLog".toList] ∧
      types.sameElements types' = true) ∧
      (Inferer.ofOptions assigned).infer (.inClass log c) ctx =
        (Inferer.ofOptions assigned).infer (.inClass log c') ctx := by
  intro log construct setUp run c c' ctx assigned
  obtain ⟨hlocal, hinfer⟩ := infer_of_sameAssigning
  have hassigning : ∀ m, m ∈ c.assigning log.name ↔ m ∈ c'.assigning log.name := by
    have hc : c.assigning log.name = [construct, setUp] := rfl
    have hc' : c'.assigning log.name = [setUp, construct] := rfl
    intro m
    simp [hc, hc', or_comm]
  constructor
  · obtain ⟨types, types', htypes, htypes', hsame, -⟩ :=
      hinfer default ctx log c c' hlocal rfl hassigning
    refine ⟨types, types', htypes, htypes', ?_, ?_, hsame⟩
    · cases htypes
      decide +kernel
    · cases htypes'
      decide +kernel
  · obtain ⟨types, types', htypes, htypes', -, horder⟩ :=
      hinfer assigned ctx log c c' hlocal rfl hassigning
    rw [htypes, htypes', horder (.inl (by decide))]

end DocTypes
