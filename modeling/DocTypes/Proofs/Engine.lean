import DocTypes.Proofs.Import.VarTypes
import DocTypes.Proofs.Inference.Aliases
import DocTypes.Proofs.VarDocs

/-!
Processing a class a second time, after its file got the imports that the first time asked for. The
comments then have nothing to be shortened, and the same types are found as before; the `@var` tags
settle where the short comments list these types still.
-/
namespace DocTypes
open Text

namespace ClassLike

variable {scope : NameScope} {c : ClassLike}

/-! What the first time leaves. -/

lemma doc_mem_docs {p : Property} (hp : p ∈ c.properties) : p.doc ∈ c.docs := by
  obtain ⟨m, hm, hproperty⟩ := List.mem_filterMap.mp hp
  cases m with
  | method m => cases hproperty
  | property p' =>
    obtain rfl : p' = p := Option.some.inj hproperty
    exact List.mem_cons_of_mem _ (List.mem_map_of_mem hm)

/-- The comments that fixing leaves are those of the class, with the types found for a property set. -/
lemma forall_docs_fixVarDocs {find : Property → TypeSet} {P : DocSlot → Prop}
    (hdocs : ∀ d ∈ c.docs, P d)
    (hset : ∀ p ∈ c.properties, ∀ types, (c.foundTypes find).get? p.name = some types →
      P (p.doc.changeVar types).1) : ∀ d ∈ (c.fixVarDocs find).1.docs, P d := by
  cases hc : c.isAnonymous with
  | true =>
    rw [fixVarDocs, hc, if_pos rfl]
    exact hdocs
  | false =>
    rw [fixVarDocs_of_named hc, docs, List.forall_mem_cons, List.forall_mem_map, List.forall_mem_map]
    rw [docs, List.forall_mem_cons, List.forall_mem_map] at hdocs
    refine ⟨hdocs.1, fun m hm => ?_⟩
    cases m with
    | method m => exact hdocs.2 _ hm
    | property p =>
      rw [fixMember]
      split
      · exact hdocs.2 _ hm
      · rename_i types hg
        exact hset p (List.mem_filterMap.mpr ⟨_, hm, rfl⟩) types hg

/-- Fixing keeps the scopes of all comments, and tidy comments tidy. -/
lemma docs_fixVarDocs (find : Property → TypeSet) (hscope : ∀ d ∈ c.docs, d.scope = some scope)
    (htidy : ∀ d ∈ c.docs, d.IsTidy) :
    ∀ d ∈ (c.fixVarDocs find).1.docs, d.scope = some scope ∧ d.IsTidy := by
  refine forall_docs_fixVarDocs (fun d hd => ⟨hscope d hd, htidy d hd⟩) fun p hp types _ => ?_
  have hd := doc_mem_docs hp
  exact ⟨(DocSlot.isReported_changeVar types p.doc).scope.trans (hscope _ hd),
    DocSlot.isTidy_changeVar (htidy _ hd) types⟩

lemma withoutDocs_fixVarDocs (find : Property → TypeSet) (c : ClassLike) :
    (c.fixVarDocs find).1.withoutDocs = c.withoutDocs := by
  cases hc : c.isAnonymous with
  | true => rw [fixVarDocs, hc, if_pos rfl]
  | false =>
    rw [fixVarDocs_of_named hc, withoutDocs, List.map_map]
    refine congrArg (ClassLike.mk _ _ · _) (List.map_congr_left fun m _ => ?_)
    cases m with
    | method m => rfl
    | property p =>
      rw [Function.comp_apply, fixMember]
      split <;> rfl

/-- Every property that was fixed lists the types found for it. -/
lemma listsVarTypes_fixVarDocs {find : Property → TypeSet} (hnamed : c.isAnonymous = false)
    (htidy : ∀ d ∈ c.docs, d.IsTidy)
    (hl : ∀ name types, (c.foundTypes find).get? name = some types →
      types.isEmpty = false ∧ ∀ n ∈ types.toList, n.IsListable) :
    ∀ p ∈ (c.fixVarDocs find).1.properties, ∀ types,
      (c.foundTypes find).get? p.name = some types → p.doc.listsVarTypes types := by
  rw [fixVarDocs_of_named hnamed, properties_fixMember, List.forall_mem_map]
  intro p hp types hg
  have hname : (fixProperty (c.foundTypes find) p).name = p.name := by
    rw [fixProperty]
    split <;> rfl
  rw [hname] at hg
  rw [fixProperty, hg]
  exact DocSlot.listsVarTypes_changeVar (htidy _ (doc_mem_docs hp)) (hl _ _ hg).2 (hl _ _ hg).1

end ClassLike

namespace Engine

variable {e : Engine}

lemma fields {config : EngineConfig} {oracle : TypeOracle} {hierarchy : ClassHierarchy}
    (h : build config oracle hierarchy = .ok e) :
    e.config = config ∧ e.oracle = oracle ∧ e.inferer = .ofOptions config.inference := by
  rw [build, EngineConfig.validated] at h
  cases hf : config.fault? with
  | some err =>
    rw [hf] at h
    cases h
  | none =>
    rw [hf] at h
    cases h
    exact ⟨rfl, rfl, rfl⟩

lemma build_of_valid {config : EngineConfig} (h : config.fault? = none) (oracle : TypeOracle)
    (hierarchy : ClassHierarchy) : build config oracle hierarchy =
      .ok ⟨config, oracle, hierarchy.isSubtype, hierarchy.isKnown, .ofOptions config.inference⟩ := by
  rw [build, EngineConfig.validated, h]
  rfl

lemma importDocNames_eq (e : Engine) (c : ClassLike) (p : PendingImports) :
    let run := c.importNames e.classExists ⟨p, []⟩
    e.importDocNames c p = ((run.1, run.2.recorded), run.2.pending) := rfl

lemma processClass_of_imports (h : e.config.importNames) (c : ClassLike) (p : PendingImports) :
    let fixed := e.fixVarDocs c
    let run := fixed.1.importNames e.classExists ⟨p, []⟩
    e.processClass c p = ((run.1, ⟨fixed.2, run.2.recorded⟩), run.2.pending) := by
  rw [processClass]
  simp only [h, if_true]
  rfl

lemma foundTypes_listable {c : ClassLike}
    (listable : ∀ p ∈ c.properties, ∀ n ∈ (e.inferProperty p c).toList, n.IsListable) :
    ∀ name types, (c.foundTypes (e.inferProperty · c)).get? name = some types →
      types.isEmpty = false ∧ ∀ n ∈ types.toList, n.IsListable := by
  intro name types hg
  obtain ⟨p, hp, -, rfl, hne⟩ := ClassLike.exists_of_foundTypes hg
  exact ⟨hne, listable p hp⟩

/-- Where nothing but comments is different and the same methods set up an instance, the types found
are the same, and nothing is fixed exactly if all are listed. -/
lemma fixVarDocs_idle_iff {config : EngineConfig} {hierarchy : ClassHierarchy}
    (built : build config .syntactic hierarchy = .ok e) {c later : ClassLike}
    (named : c.isAnonymous = false) (same : later.withoutDocs = c.withoutDocs)
    (methods : later.methods.map (Strategy.isInstantiating config.inference) =
      c.methods.map (Strategy.isInstantiating config.inference))
    (tidy : ∀ d ∈ later.docs, d.IsTidy)
    (listable : ∀ p ∈ c.properties, ∀ n ∈ (e.inferProperty p c).toList, n.IsListable) :
    let listed := ∀ p ∈ later.properties, ∀ types,
      (c.foundTypes (e.inferProperty · c)).get? p.name = some types → p.doc.listsVarTypes types
    ((e.fixVarDocs later).2 = 0 ↔ listed) ∧ (listed → e.fixVarDocs later = (later, 0)) := by
  obtain ⟨hconfig, horacle, hinferer⟩ := fields built
  have hfound : c.foundTypes (e.inferProperty · c) =
      later.foundTypes (e.inferProperty · later) := by
    refine ClassLike.foundTypes_congr (f := .withoutDoc) (fun _ => rfl) ?_ fun p p' hp => ?_
    · rw [← ClassLike.properties_withoutDocs, ← same, ClassLike.properties_withoutDocs]
    · rw [inferProperty, inferProperty, context, hinferer, horacle, hconfig]
      exact ClassLike.inferIn_of_withoutDocs config.inference same.symm methods.symm hp
  have hname : later.withoutDocs.name = c.withoutDocs.name := by rw [same]
  have hnamed : later.isAnonymous = false := (congrArg Option.isNone hname).trans named
  have htypes := foundTypes_listable listable
  rw [hfound] at htypes ⊢
  exact ClassLike.fixVarDocs_idle_iff hnamed (fun p hp => tidy _ (ClassLike.doc_mem_docs hp)) htypes

/-- The types that were set are listed as long as the tags stand for them, if the aliases that are
declared are single segments. -/
lemma listsVarTypes_of_meaning {config : EngineConfig} {hierarchy : ClassHierarchy}
    (built : build config .syntactic hierarchy = .ok e) {c later : ClassLike} {scope : NameScope}
    (named : c.isAnonymous = false) (tidy : ∀ d ∈ c.docs, d.IsTidy)
    (listable : ∀ p ∈ c.properties, ∀ n ∈ (e.inferProperty p c).toList, n.IsListable)
    (aliases : ∀ x ∈ c.declaredClasses, Strategy.isAliased x.1 x.2 →
      x.1 = scope.resolve x.2 ∧ Name.isNamespaced x.2 = false)
    (keeps : List.Forall₂ (fun p p' => p.withoutDoc = p'.withoutDoc ∧
      p.doc.KeepsVarTypes scope p'.doc) (e.fixVarDocs c).1.properties later.properties)
    (meaning : (e.fixVarDocs c).1.properties.map (·.doc.varMeaning?) =
      later.properties.map (·.doc.varMeaning?)) :
    ∀ p ∈ later.properties, ∀ types,
      (c.foundTypes (e.inferProperty · c)).get? p.name = some types → p.doc.listsVarTypes types := by
  have hlists := ClassLike.listsVarTypes_fixVarDocs named tidy (foundTypes_listable listable)
  rw [map_eq_map_iff_forall₂] at meaning
  refine forall_mem_of_forall₂ keeps meaning fun p hp p' hkeeps hmeaning types hg => ?_
  have hname : p.withoutDoc.name = p'.withoutDoc.name := by rw [hkeeps.1]
  rw [hkeeps.2 hmeaning types fun n hn ha => ?_]
  · refine hlists p hp types ?_
    rw [show p.name = p'.name from hname]
    exact hg
  · -- An alias that was found is one that is declared.
    obtain ⟨p₀, hp₀, -, rfl, -⟩ := ClassLike.exists_of_foundTypes hg
    have hwritten : Strategy.IsWrittenFor c.declaredClasses n := by
      rw [inferProperty, (fields built).2.2] at hn
      exact isWrittenFor_inferIn config.inference e.context c p₀ n hn
    obtain ⟨x, hx, htext, halias⟩ := hwritten ha
    obtain ⟨hresolve, hsegment⟩ := aliases x hx halias
    have hlistable := listable p₀ hp₀ n hn
    rw [TypeName.IsListable, if_pos ha] at hlistable
    rw [htext, ← hresolve]
    exact ⟨htext ▸ hlistable, hsegment, halias⟩

/-- The first time fixes the types and then shortens the comments, one after the other. -/
lemma first_import (imports : e.config.importNames) {c : ClassLike} {scope : NameScope}
    (shared : ∀ d ∈ c.docs, d.scope = some scope) (tidy : ∀ d ∈ c.docs, d.IsTidy) :
    let fixed := (e.fixVarDocs c).1
    let first := e.processClass c ∅
    ((∀ d ∈ fixed.docs, d.scope = some scope) ∧ ∀ d ∈ fixed.docs, d.IsTidy) ∧
      first.2.IsFree scope ∧ fixed.IsImport e.classExists scope first.2 first.1.1 ∧
      ∀ imports, (∀ d ∈ fixed.docs, TypeRef.importsFor e.classExists scope d.names ⊆ imports) →
        first.2.names scope ⊆ imports := by
  intro fixed first
  have hdocs : ∀ d ∈ fixed.docs, d.scope = some scope ∧ d.IsTidy :=
    ClassLike.docs_fixVarDocs (e.inferProperty · c) shared tidy
  have hscope : ∀ d ∈ fixed.docs, d.scope = some scope := fun d hd => (hdocs d hd).1
  have htidy : ∀ d ∈ fixed.docs, d.IsTidy := fun d hd => (hdocs d hd).2
  obtain ⟨hfree, hrun, hnames⟩ := ClassLike.isImport_importNames e.classExists hscope htidy
    (show (ImportState.mk ∅ []).pending.IsFree scope from PendingImports.isFree_empty scope)
  have hfirst : first = _ := processClass_of_imports imports c ∅
  have hclass : first.1.1 = (fixed.importNames e.classExists ⟨∅, []⟩).1 :=
    congrArg (fun run => run.1.1) hfirst
  have hpending : first.2 = (fixed.importNames e.classExists ⟨∅, []⟩).2.pending :=
    congrArg Prod.snd hfirst
  rw [← hpending] at hfree hrun hnames
  rw [← hclass] at hrun
  exact ⟨⟨hscope, htidy⟩, hfree, hrun, fun imports => hnames imports (List.nil_subset _)⟩

/-- In the scope with the imports nothing is left to shorten if the names stand for what they stood
for, and nothing is left to fix exactly if the types found are listed. -/
lemma second_time {config : EngineConfig} {hierarchy : ClassHierarchy}
    (built : build config .syntactic hierarchy = .ok e) (imports : config.importNames)
    {c : ClassLike} (named : c.isAnonymous = false) {scope : NameScope}
    (shared : ∀ d ∈ c.docs, d.scope = some scope) (tidy : ∀ d ∈ c.docs, d.IsTidy)
    (listable : ∀ p ∈ c.properties, ∀ n ∈ (e.inferProperty p c).toList, n.IsListable)
    (whole : ∀ d ∈ (e.fixVarDocs c).1.docs, d.IsWhole) :
    let first := e.processClass c ∅
    let later := first.1.1.withPending first.2
    List.Forall₂ DocSlot.KeepsMeaning (e.fixVarDocs c).1.docs later.docs →
    later.methods.map (Strategy.isInstantiating config.inference) =
      c.methods.map (Strategy.isInstantiating config.inference) →
    ∀ q, q = first.2 ∨ q = ∅ →
      later.importNames e.classExists ⟨q, []⟩ = (later, ⟨q, []⟩) ∧
      (e.processClass later q = ((later, ⟨0, []⟩), q) ↔
        ∀ p ∈ later.properties, ∀ types,
          (c.foundTypes (e.inferProperty · c)).get? p.name = some types →
            p.doc.listsVarTypes types) := by
  intro first later meaning methods q hq
  have himports : e.config.importNames := by rw [(fields built).1, imports]
  obtain ⟨⟨hscope, htidy⟩, hfree, hrun, -⟩ := first_import himports shared tidy
  have hidle : later.importNames e.classExists ⟨q, []⟩ = (later, ⟨q, []⟩) :=
    hrun.importNames_again hscope htidy hfree hq whole meaning []
  have hsame : later.withoutDocs = c.withoutDocs := by
    rw [ClassLike.withoutDocs_withPending, hrun.withoutDocs]
    exact ClassLike.withoutDocs_fixVarDocs _ c
  have hfix := fixVarDocs_idle_iff built named hsame methods (hrun.isTidy hscope htidy) listable
  have hrun : e.processClass later q = _ := processClass_of_imports himports later q
  refine ⟨hidle, fun h => hfix.1.mp ?_, fun h => ?_⟩
  · rw [hrun] at h
    exact congrArg (fun r => r.1.2.fixedProperties) h
  · rw [hrun, hfix.2 h, hidle]

/-- Once the file has the imports that were asked for, a second time shortens nothing, and changes
nothing at all exactly if the short `@var` tags list the types still. They do where they stand for the
same, name by name, and no class is declared through an alias of a part of its name. -/
theorem processClass_processClass_iff {config : EngineConfig} {hierarchy : ClassHierarchy}
    (built : build config .syntactic hierarchy = .ok e) (imports : config.importNames)
    {c : ClassLike} (named : c.isAnonymous = false) {scope : NameScope}
    (shared : ∀ d ∈ c.docs, d.scope = some scope) (tidy : ∀ d ∈ c.docs, d.IsTidy)
    (listable : ∀ p ∈ c.properties, ∀ n ∈ (e.inferProperty p c).toList, n.IsListable) :
    let fixed := (e.fixVarDocs c).1
    let first := e.processClass c ∅
    let later := first.1.1.withPending first.2
    let found := c.foundTypes (e.inferProperty · c)
    (∀ d ∈ fixed.docs, d.IsWhole) → List.Forall₂ DocSlot.KeepsMeaning fixed.docs later.docs →
    later.methods.map (Strategy.isInstantiating config.inference) =
      c.methods.map (Strategy.isInstantiating config.inference) →
    ∀ q, q = first.2 ∨ q = ∅ →
      e.importDocNames later q = ((later, []), q) ∧
      (e.processClass later q = ((later, ⟨0, []⟩), q) ↔
        ∀ p ∈ later.properties, ∀ types, found.get? p.name = some types →
          p.doc.listsVarTypes types) ∧
      ((∀ x ∈ c.declaredClasses, Strategy.isAliased x.1 x.2 →
          x.1 = scope.resolve x.2 ∧ Name.isNamespaced x.2 = false) →
        fixed.properties.map (·.doc.varMeaning?) = later.properties.map (·.doc.varMeaning?) →
        e.processClass later q = ((later, ⟨0, []⟩), q)) := by
  intro fixed first later found whole meaning methods q hq
  have himports : e.config.importNames := by rw [(fields built).1, imports]
  obtain ⟨⟨hscope, htidy⟩, hfree, hrun, -⟩ := first_import himports shared tidy
  obtain ⟨hidle, hsettled⟩ :=
    second_time built imports named shared tidy listable whole meaning methods q hq
  refine ⟨by rw [importDocNames_eq, hidle], hsettled, fun aliases hvar => hsettled.mpr ?_⟩
  exact listsVarTypes_of_meaning built named tidy listable aliases
    (hrun.keepsVarTypes hscope htidy hfree whole meaning) hvar

/-- A parameter that may be null, and one that is declared by an alias. -/
theorem processClass_processClass_nullable_and_alias :
    let e : Engine := ⟨{ importNames := true }, .syntactic, (∅ : ClassHierarchy).isSubtype,
      (∅ : ClassHierarchy).isKnown, .ofOptions default⟩
    let scope := ((NameScope.inNamespace (some "App\\Service")).withFile
      "src/Service/Mailer.php").importAs "Psr\\Log\\LoggerInterface" "Log"
    let transport : Property := { name := "transport"
                                  doc := ⟨some "/**\n     * @var string\n     */", none⟩ }
    let hint : TypeHint :=
      .nullable (.named "Symfony\\Mailer\\Transport" "\\Symfony\\Mailer\\Transport")
    let c := ClassLike.withScope scope
      { name := some "App\\Service\\Mailer"
        members := [.property transport, .property { name := "log" },
          .method { name := "__construct"
                    params := [⟨"transport", some hint, none, false⟩,
                      ⟨"log", some (.ofAlias "Psr\\Log\\LoggerInterface" "Log"), none, false⟩]
                    body := [.assignThis "transport" (.var "transport"),
                      .assignThis "log" (.var "log")] }] }
    let first := e.processClass c ∅
    let later := first.1.1.withPending first.2
    first.1.2 = ⟨2, ["Symfony\\Mailer\\Transport"]⟩ ∧
      later.properties.map (·.doc.text) = [some "/**\n     * @var Transport|null\n     */".toList,
        some "/**\n * @var Log\n */".toList] ∧
      e.processClass later first.2 = ((later, ⟨0, []⟩), first.2) := by
  intro e scope transport hint c first later
  have hbuilt : build { importNames := true } .syntactic ∅ = .ok e :=
    build_of_valid (by decide +kernel) _ _
  have hshared : ∀ d ∈ c.docs, d.scope = some scope := by decide +kernel
  have htidy : ∀ d ∈ c.docs, d.IsTidy := by decide +kernel
  have hlistable : ∀ p ∈ c.properties, ∀ n ∈ (e.inferProperty p c).toList, n.IsListable := by
    decide +kernel
  have haliases : ∀ x ∈ c.declaredClasses, Strategy.isAliased x.1 x.2 →
      x.1 = scope.resolve x.2 ∧ Name.isNamespaced x.2 = false := by decide +kernel
  have hfirst : first.1.2 = ⟨2, ["Symfony\\Mailer\\Transport"]⟩ ∧
      later.properties.map (·.doc.text) = [some "/**\n     * @var Transport|null\n     */".toList,
        some "/**\n * @var Log\n */".toList] ∧
      (∀ d ∈ (e.fixVarDocs c).1.docs, d.IsWhole) ∧
      List.Forall₂ DocSlot.KeepsMeaning (e.fixVarDocs c).1.docs later.docs ∧
      later.methods.map (Strategy.isInstantiating default) =
        c.methods.map (Strategy.isInstantiating default) ∧
      (e.fixVarDocs c).1.properties.map (·.doc.varMeaning?) =
        later.properties.map (·.doc.varMeaning?) := by
    decide +kernel
  simp only [later, first] at hfirst ⊢
  obtain ⟨hreport, htexts, hwhole, hmeaning, hmethods, hvar⟩ := hfirst
  obtain ⟨-, -, hagain⟩ := processClass_processClass_iff hbuilt rfl rfl hshared htidy hlistable
    hwhole hmeaning hmethods (e.processClass c ∅).2 (.inl rfl)
  exact ⟨hreport, htexts, hagain haliases hvar⟩

/-- A class that is written through an import of its namespace is shortened by the first time, and
written as before by the second. -/
theorem processClass_processClass_partly_aliased :
    let e : Engine := ⟨{ importNames := true }, .syntactic, (∅ : ClassHierarchy).isSubtype,
      (∅ : ClassHierarchy).isKnown, .ofOptions default⟩
    let scope := ((NameScope.inNamespace (some "App\\Entity")).withFile "src/Entity/Book.php").importAs
      "Doctrine\\ORM\\Mapping" "ORM"
    let hint : TypeHint := .ofAlias "Doctrine\\ORM\\Mapping\\Column" "ORM\\Column"
    let c := ClassLike.withScope scope
      { name := some "App\\Entity\\Book"
        members := [.property { name := "column", doc := ⟨some "/** @var int */", none⟩ },
          .method { name := "__construct"
                    params := [⟨"column", some hint, none, false⟩]
                    body := [.assignThis "column" (.var "column")] }] }
    let first := e.processClass c ∅
    let later := first.1.1.withPending first.2
    build { importNames := true } .syntactic ∅ = .ok e ∧
      scope.resolve "ORM\\Column" = "Doctrine\\ORM\\Mapping\\Column".toList ∧
      later.properties.map (·.doc.text) = [some "/** @var Column */".toList] ∧
      (e.processClass later first.2).1.2.fixedProperties ≠ 0 := by
  intro e scope hint c first later
  exact ⟨build_of_valid (by decide +kernel) _ _, by decide +kernel⟩

end Engine
end DocTypes
