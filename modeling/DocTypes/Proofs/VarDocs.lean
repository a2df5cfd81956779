import DocTypes.Proofs.Doc.ChangeVar
import DocTypes.Proofs.Doc.Reports
import DocTypes.Proofs.Inference.Names
import DocTypes.VarDocs
import Mathlib.Data.List.Nodup

/-!
Fixing the `@var` tags of a class settles at once. What is found does not depend on the comments that
are fixed, so the second time every property is set to the types it was set to the first time.
-/
namespace DocTypes

namespace OrderedMap

variable {κ ν : Type} [DecidableEq κ]

/-- What is found under a key was given with that key. -/
lemma mem_of_get?_ofList {es : List (κ × ν)} {k : κ} {v : ν} (h : (ofList es).get? k = some v) :
    (k, v) ∈ es := by
  have key : ∀ (es : List (κ × ν)) (m : OrderedMap κ ν),
      (es.foldl (fun m e => m.insert e.1 e.2) m).get? k = some v →
        m.get? k = some v ∨ (k, v) ∈ es := by
    intro es
    induction es with
    | nil => exact fun m h => .inl h
    | cons e es ih =>
      intro m h
      rcases ih _ h with h | h
      · rw [get?_insert] at h
        split at h
        · rename_i hk
          obtain rfl := Option.some.inj h
          exact .inr (by simp [hk])
        · exact .inl h
      · exact .inr (List.mem_cons_of_mem e h)
  exact (key es ∅ h).resolve_left nofun

end OrderedMap

namespace DocSlot

/-- Types that can be listed are left alone exactly where they are listed. -/
lemma changeVar_idle_iff {s : DocSlot} (hs : s.IsTidy) {types : TypeSet}
    (hl : ∀ n ∈ types.toList, n.IsListable) (hne : types.isEmpty = false) :
    (s.changeVar types).2 = false ↔ s.listsVarTypes types := by
  refine ⟨fun h => ?_, fun h => ?_⟩
  · have hlists := listsVarTypes_changeVar hs hl hne
    rwa [(isReported_changeVar types s).eq_self h] at hlists
  · rw [changeVar_of_idle (by rw [h, Bool.or_true])]

end DocSlot

namespace ClassLike

/-! One member. -/

/-- The property with its `@var` tag as `found` has it. -/
def fixProperty (found : OrderedMap Text TypeSet) (p : Property) : Property :=
  match found.get? p.name with
  | none => p
  | some types => { p with doc := (p.doc.changeVar types).1 }

lemma withoutComment_fixProperty (found : OrderedMap Text TypeSet) (p : Property) :
    (fixProperty found p).withoutComment = p.withoutComment := by
  rw [fixProperty]
  split
  · rfl
  · rename_i types _
    have := (DocSlot.isReported_changeVar types p.doc).scope
    simp [Property.withoutComment, this]

lemma fixMember_property (found : OrderedMap Text TypeSet) (p : Property) :
    fixMember found (.property p) = (.property (fixProperty found p),
      decide (p.doc.text ≠ (fixProperty found p).doc.text)) := by
  rw [fixMember, fixProperty]
  cases hg : found.get? p.name with
  | none => simp
  | some types =>
    have hflag := (DocSlot.isReported_changeVar types p.doc).flag
    dsimp only
    rw [Prod.mk.injEq, Bool.eq_iff_iff, decide_eq_true_eq]
    exact ⟨rfl, hflag⟩

/-- Fixing a property again changes nothing, if the types found have no line breaks. -/
lemma fixMember_fixMember {found : OrderedMap Text TypeSet} {m : Member}
    (htidy : ∀ p, m.property? = some p → p.doc.IsTidy)
    (hfound : ∀ name types, found.get? name = some types → types.IsUnbroken) :
    fixMember found (fixMember found m).1 = ((fixMember found m).1, false) := by
  cases m with
  | method m => rfl
  | property p =>
    rw [fixMember]
    cases hg : found.get? p.name with
    | none => simp [fixMember, hg]
    | some types =>
      have hagain := (DocSlot.changeVar_changeVar (htidy p rfl) types).1 (hfound _ _ hg)
      simp [fixMember, Member.withDoc, hg, hagain]

/-! All members. -/

section
variable {find : Property → TypeSet} {c : ClassLike}

lemma exists_of_foundTypes {name : Text} {types : TypeSet}
    (h : (c.foundTypes find).get? name = some types) :
    ∃ p ∈ c.properties, p.name = name ∧ find p = types ∧ types.isEmpty = false := by
  obtain ⟨p, hp, he⟩ := List.mem_filterMap.mp (OrderedMap.mem_of_get?_ofList h)
  split at he
  · cases he
  · rename_i hsome
    cases he
    exact ⟨p, hp, rfl, rfl, by simpa using hsome⟩

lemma fixVarDocs_of_named (h : c.isAnonymous = false) : c.fixVarDocs find =
    ({ c with members := c.members.map fun m => (fixMember (c.foundTypes find) m).1 },
      c.members.countP fun m => (fixMember (c.foundTypes find) m).2) := by
  rw [fixVarDocs, h, if_neg (by decide)]
  simp [Function.comp_def]

/-- A class is left alone where all its members are as they are to be. -/
lemma fixVarDocs_eq_self (h : c.isAnonymous = false)
    (hmembers : ∀ m ∈ c.members, fixMember (c.foundTypes find) m = (m, false)) :
    c.fixVarDocs find = (c, 0) := by
  have hself : (c.members.map fun m => (fixMember (c.foundTypes find) m).1) = c.members :=
    (List.map_congr_left fun m hm => congrArg Prod.fst (hmembers m hm)).trans (List.map_id' _)
  rw [fixVarDocs_of_named h, hself, Prod.mk.injEq, List.countP_eq_zero]
  exact ⟨rfl, fun m hm => by simp [hmembers m hm]⟩

lemma properties_fixMember (found : OrderedMap Text TypeSet) (c : ClassLike) :
    properties { c with members := c.members.map fun m => (fixMember found m).1 } =
      c.properties.map (fixProperty found) := by
  rw [properties, properties, List.filterMap_map, List.map_filterMap]
  refine List.filterMap_congr fun m _ => ?_
  cases m with
  | method m => rfl
  | property p => simp [fixMember_property, Member.property?]

lemma withoutPropertyComments_fixMember (found : OrderedMap Text TypeSet) (c : ClassLike) :
    withoutPropertyComments { c with members := c.members.map fun m => (fixMember found m).1 } =
      c.withoutPropertyComments := by
  have hmembers : (c.members.map fun m => (fixMember found m).1).map Member.withoutPropertyComment =
      c.members.map Member.withoutPropertyComment := by
    rw [List.map_map]
    refine List.map_congr_left fun m _ => ?_
    cases m with
    | method m => rfl
    | property p =>
      simp [fixMember_property, Member.withoutPropertyComment, withoutComment_fixProperty]
  rw [withoutPropertyComments, hmembers]
  rfl

lemma countP_fixMember (found : OrderedMap Text TypeSet) (c : ClassLike) :
    (c.members.countP fun m => (fixMember found m).2) =
      (c.properties.zip (c.properties.map (fixProperty found))).countP
        fun e => e.1.doc.text ≠ e.2.doc.text := by
  have hzip : c.properties.zip (c.properties.map (fixProperty found)) =
      c.properties.map fun p => (p, fixProperty found p) := by
    rw [List.zip_map_right, List.zip_eq_zipWith]
    simp
  rw [hzip, List.countP_map, properties, List.countP_filterMap]
  refine List.countP_congr fun m _ => ?_
  cases m with
  | method m => simp [fixMember, Member.property?]
  | property p => simp [fixMember_property, Member.property?]

/-- A property keeps its comment where no types were found, if no other has its name. -/
lemma fixProperty_of_isEmpty (hnames : (c.properties.map (·.name)).Nodup) {p : Property}
    (hp : p ∈ c.properties) (h : (find p).isEmpty) : fixProperty (c.foundTypes find) p = p := by
  rw [fixProperty]
  split
  · rfl
  · rename_i types hg
    obtain ⟨q, hq, hname, rfl, hsome⟩ := exists_of_foundTypes hg
    obtain rfl := List.inj_on_of_nodup_map hnames hq hp hname
    simp [hsome] at h

/-- Where the properties agree in what is looked at, the same types are found. -/
lemma foundTypes_congr {find' : Property → TypeSet} {c' : ClassLike} {f : Property → Property}
    (hname : ∀ p, (f p).name = p.name) (h : c.properties.map f = c'.properties.map f)
    (hfind : ∀ p p', f p = f p' → find p = find' p') :
    c.foundTypes find = c'.foundTypes find' := by
  have key : ∀ {ps ps' : List Property}, List.Forall₂ (fun p p' => f p = f p') ps ps' →
      (ps.filterMap fun p => if (find p).isEmpty then none else some (p.name, find p)) =
        ps'.filterMap fun p => if (find' p).isEmpty then none else some (p.name, find' p) := by
    intro ps ps' h
    induction h with
    | nil => rfl
    | @cons p p' _ _ hp _ ih =>
      have hsame : p.name = p'.name := by rw [← hname, hp, hname]
      rw [List.filterMap_cons, List.filterMap_cons, ih, hfind p p' hp, hsame]
  exact congrArg OrderedMap.ofList (key (map_eq_map_iff_forall₂.mp h))

/-- What the first time left is as `found` has it exactly if every comment lists its types. -/
lemma fixVarDocs_idle_iff {find : Property → TypeSet} (hnamed : c.isAnonymous = false)
    (htidy : ∀ p ∈ c.properties, p.doc.IsTidy)
    (hl : ∀ name types, (c.foundTypes find).get? name = some types →
      types.isEmpty = false ∧ ∀ n ∈ types.toList, n.IsListable) :
    let listed := ∀ p ∈ c.properties, ∀ types,
      (c.foundTypes find).get? p.name = some types → p.doc.listsVarTypes types
    ((c.fixVarDocs find).2 = 0 ↔ listed) ∧ (listed → c.fixVarDocs find = (c, 0)) := by
  intro listed
  have hidle : listed → c.fixVarDocs find = (c, 0) := by
    intro hlisted
    refine fixVarDocs_eq_self hnamed ?_
    rintro (p | m) hm
    · rw [fixMember]
      split
      · rfl
      · rename_i types hg
        have hp : p ∈ c.properties := List.mem_filterMap.mpr ⟨.property p, hm, rfl⟩
        rw [DocSlot.changeVar_of_idle (by rw [hlisted p hp types hg, Bool.or_true])]
        rfl
    · rfl
  refine ⟨⟨fun h p hp types hg => ?_, fun h => by rw [hidle h]⟩, hidle⟩
  rw [fixVarDocs_of_named hnamed, List.countP_eq_zero] at h
  obtain ⟨m, hm, hproperty⟩ := List.mem_filterMap.mp hp
  cases m with
  | method m => cases hproperty
  | property p' =>
    obtain rfl : p' = p := Option.some.inj hproperty
    have hflag := h _ hm
    rw [fixMember, hg, Bool.not_eq_true] at hflag
    exact (DocSlot.changeVar_idle_iff (htidy _ hp) (hl _ types hg).2 (hl _ types hg).1).mp hflag

end

/-- Fixing the `@var` tags of a class tells how many comments it changed, changes nothing besides,
leaves a property without types alone, and changes nothing the second time. -/
theorem fixVarDocs_fixVarDocs (o : InferenceOptions) (ctx : InferenceContext)
    (blind : ctx.oracle.IsBlind) (c : ClassLike) (tidy : ∀ p ∈ c.properties, p.doc.IsTidy)
    (types : ∀ p ∈ c.properties, ctx.oracle.IsUnbroken p.name c) (hints : c.HasUnbrokenHints) :
    let find (c : ClassLike) (p : Property) := (Inferer.ofOptions o).inferIn p c ctx
    let fixed := (c.fixVarDocs (find c)).1
    (c.fixVarDocs (find c)).2 =
        (c.properties.zip fixed.properties).countP (fun e => e.1.doc.text ≠ e.2.doc.text) ∧
      fixed.withoutPropertyComments = c.withoutPropertyComments ∧
      ((c.properties.map (·.name)).Nodup →
        ∀ e ∈ c.properties.zip fixed.properties, (find c e.1).isEmpty → e.2 = e.1) ∧
      fixed.fixVarDocs (find fixed) = (fixed, 0) := by
  intro find fixed
  cases hc : c.isAnonymous with
  | true =>
    have hfixed : ∀ find, c.fixVarDocs find = (c, 0) := fun find => if_pos hc
    have hself : fixed = c := congrArg Prod.fst (hfixed _)
    rw [hself, hfixed]
    have hzip : c.properties.zip c.properties = c.properties.map fun p => (p, p) := by
      rw [List.zip_eq_zipWith, List.zipWith_self]
    refine ⟨?_, rfl, fun _ e he _ => ?_, rfl⟩
    · simp [hzip, Function.comp_def]
    · rw [hzip] at he
      obtain ⟨p, -, rfl⟩ := List.mem_map.mp he
      rfl
  | false =>
    have hfix : c.fixVarDocs (find c) = _ := fixVarDocs_of_named hc
    have hfixed : fixed = { c with members := c.members.map fun m =>
        (fixMember (c.foundTypes (find c)) m).1 } := congrArg Prod.fst hfix
    have hproperties : fixed.properties =
        c.properties.map (fixProperty (c.foundTypes (find c))) := by
      rw [hfixed, properties_fixMember]
    have hsame : fixed.withoutPropertyComments = c.withoutPropertyComments := by
      rw [hfixed, withoutPropertyComments_fixMember]
    refine ⟨?_, hsame, fun hnames e he hempty => ?_, ?_⟩
    · rw [hproperties, hfix, ← countP_fixMember]
    · rw [hproperties, List.zip_map_right, List.zip_eq_zipWith, List.zipWith_self,
        List.map_map] at he
      obtain ⟨p, hp, rfl⟩ := List.mem_map.mp he
      exact fixProperty_of_isEmpty hnames hp hempty
    · -- The same types are found, and every member is as it was left.
      have hfound : fixed.foundTypes (find fixed) = c.foundTypes (find c) := by
        refine foundTypes_congr (f := .withoutComment) (fun _ => rfl) ?_ fun p p' hp =>
          inferIn_of_withoutPropertyComments o blind hsame hp
        rw [← properties_withoutPropertyComments, hsame, properties_withoutPropertyComments]
      have hunbroken : ∀ name types, (c.foundTypes (find c)).get? name = some types →
          types.IsUnbroken := by
        intro name types' hg
        obtain ⟨p, hp, -, rfl, -⟩ := exists_of_foundTypes hg
        exact isUnbroken_inferIn (types p hp) hints o
      have hanonymous : fixed.isAnonymous = false := by
        rw [hfixed]
        exact hc
      refine fixVarDocs_eq_self hanonymous fun m hm => ?_
      rw [hfixed] at hm
      obtain ⟨m₀, hm₀, rfl⟩ := List.mem_map.mp hm
      rw [hfound]
      exact fixMember_fixMember (fun p hp => tidy p (List.mem_filterMap.mpr ⟨m₀, hm₀, hp⟩))
        hunbroken

/-- A property that the constructor sets from a parameter that may be null. -/
theorem fixVarDocs_fixVarDocs_nullable_param :
    let method : Method := { name := "__construct"
                             params := [⟨"b", some (.nullable (.named "App\\B" "B")), none, false⟩]
                             body := [.assignThis "b" (.var "b")] }
    let c : ClassLike := { name := some "App\\A"
                           members := [.property { name := "b", doc := ⟨some "/** @var int */", none⟩ },
                             .method method] }
    let find (c : ClassLike) (p : Property) :=
      (Inferer.ofOptions default).inferIn p c ⟨.syntactic, default⟩
    let fixed := (c.fixVarDocs (find c)).1
    fixed.properties.map (·.doc.text) = [some "/** @var \\App\\B|null */".toList] ∧
      (c.fixVarDocs (find c)).2 = 1 ∧ fixed.fixVarDocs (find fixed) = (fixed, 0) := by
  intro method c find fixed
  have htidy : ∀ p ∈ c.properties, p.doc.IsTidy := by decide +kernel
  have htypes : ∀ p ∈ c.properties, TypeOracle.syntactic.IsUnbroken p.name c := by decide +kernel
  have hhints : c.HasUnbrokenHints := by decide +kernel
  obtain ⟨hcount, -, -, hagain⟩ := fixVarDocs_fixVarDocs default ⟨.syntactic, default⟩
    TypeOracle.isBlind_syntactic c htidy htypes hhints
  exact ⟨by decide +kernel, hcount.trans (by decide +kernel), hagain⟩

end ClassLike
end DocTypes
