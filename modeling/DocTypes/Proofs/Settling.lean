import DocTypes.Proofs.Engine
import DocTypes.Proofs.Import.Markers
import DocTypes.Proofs.Import.SafeNames

/-!
Which classes are settled after one time. All names that can come to stand in the comments of a class
are known before it is processed, and so are the imports that they may ask for. If each name is safe
from these imports, a second time changes nothing.
-/
namespace DocTypes
open Text

/-- Fixing changes no method. -/
lemma ClassLike.methods_fixVarDocs (find : Property → TypeSet) (c : ClassLike) :
    (c.fixVarDocs find).1.methods = c.methods := by
  cases hc : c.isAnonymous with
  | true => rw [fixVarDocs, hc, if_pos rfl]
  | false =>
    rw [fixVarDocs_of_named hc, methods, methods, List.filterMap_map]
    refine List.filterMap_congr fun m _ => ?_
    cases m with
    | method m => rfl
    | property p =>
      rw [Function.comp_apply, fixMember]
      split <;> rfl

namespace Engine

variable {e : Engine} {c : ClassLike} {scope : NameScope}

/-- The names in the types of the comments, and those of the types that are found. -/
def namesMet (e : Engine) (scope : NameScope) (c : ClassLike) : List TypeRef :=
  c.docs.flatMap (·.names) ++ c.properties.flatMap fun p =>
    (e.inferProperty p c).toList.map fun n => (TypeRef.ofWritten n.core).resolveIn (some scope)

/-- The imports that processing the class may ask for. -/
def importsMet (e : Engine) (scope : NameScope) (c : ClassLike) : List Text :=
  TypeRef.importsFor e.classExists scope (e.namesMet scope c)

/-- All that is asked of a class and its scope, before anything is done to them: every type in the
comments is read as itself when it is printed, every name is safe, what marks a method is no annotation
class, and a class is declared by its name or by an alias of it. -/
structure IsSettling (e : Engine) (scope : NameScope) (c : ClassLike) : Prop where
  full : scope.IsFull
  faithful : ∀ d ∈ c.docs, ∀ content ∈ d.contents, (content.map (·.written)).isFaithful
  safe : ∀ r ∈ e.namesMet scope c, r.IsSafe e.classExists scope (e.importsMet scope c)
  markers : ∀ k ∈ e.config.inference.instantiationMarkers, IsMarker k
  aliases : ∀ x ∈ c.declaredClasses, Strategy.isAliased x.1 x.2 →
    x.1 = scope.resolve x.2 ∧ Name.isNamespaced x.2 = false

section
variable (shared : ∀ d ∈ c.docs, d.scope = some scope) (tidy : ∀ d ∈ c.docs, d.IsTidy)
  (listable : ∀ p ∈ c.properties, ∀ n ∈ (e.inferProperty p c).toList, n.IsListable)
include shared tidy listable

/-- Fixing writes no name into a comment but those that were met. -/
lemma names_fixVarDocs_subset : ∀ d ∈ (e.fixVarDocs c).1.docs, d.names ⊆ e.namesMet scope c := by
  refine ClassLike.forall_docs_fixVarDocs (fun d hd r hr => ?_) fun p hp types hg r hr => ?_
  · exact List.mem_append_left _ (List.mem_flatMap.mpr ⟨d, hd, hr⟩)
  · have hd := ClassLike.doc_mem_docs hp
    obtain ⟨p₀, hp₀, -, rfl, -⟩ := ClassLike.exists_of_foundTypes hg
    rcases DocSlot.of_mem_names_changeVar (tidy _ hd) (listable p₀ hp₀) hr with hr | ⟨n, hn, rfl⟩
    · exact List.mem_append_left _ (List.mem_flatMap.mpr ⟨_, hd, hr⟩)
    · rw [shared _ hd]
      exact List.mem_append_right _ (List.mem_flatMap.mpr ⟨p₀, hp₀, List.mem_map_of_mem hn⟩)

/-- What is safe before the types are fixed is safe after. -/
lemma IsSettling.isSafe_fixVarDocs (h : e.IsSettling scope c) :
    ∀ d ∈ (e.fixVarDocs c).1.docs, d.IsSafe e.classExists scope (e.importsMet scope c) := by
  have hdocs : ∀ d ∈ c.docs, d.IsSafe e.classExists scope (e.importsMet scope c) := fun d hd =>
    ⟨h.faithful d hd, fun r hr =>
      h.safe r (List.mem_append_left _ (List.mem_flatMap.mpr ⟨d, hd, hr⟩))⟩
  refine ClassLike.forall_docs_fixVarDocs hdocs fun p hp types hg => ?_
  have hd := ClassLike.doc_mem_docs hp
  obtain ⟨p₀, hp₀, -, rfl, -⟩ := ClassLike.exists_of_foundTypes hg
  refine (hdocs _ hd).changeVar (tidy _ hd) (listable p₀ hp₀) (shared _ hd) fun n hn => h.safe _ ?_
  exact List.mem_append_right _ (List.mem_flatMap.mpr ⟨p₀, hp₀, List.mem_map_of_mem hn⟩)

/-- After the first time the comments stand, in the scope with the imports, for what they stood for
once the types were set. -/
lemma IsSettling.meaning_eq (h : e.IsSettling scope c) (imports : e.config.importNames) :
    let first := e.processClass c ∅
    List.Forall₂ (fun d d' => d'.meaning = d.meaning) (e.fixVarDocs c).1.docs
      (first.1.1.withPending first.2).docs := by
  intro first
  obtain ⟨⟨hscope, htidy⟩, hfree, hrun, hnames⟩ := first_import imports shared tidy
  have hsafe := h.isSafe_fixVarDocs shared tidy listable
  have hsubset := names_fixVarDocs_subset shared tidy listable
  have hpending : first.2.names scope ⊆ e.importsMet scope c :=
    hnames _ fun d hd => TypeRef.importsFor_subset (hsubset d hd)
  rw [ClassLike.docs_withPending, List.forall₂_map_right_iff]
  exact (forall₂_and_mem hrun.docs hrun.docs).imp fun d d' ⟨hd, himport, _⟩ =>
    himport.meaning_eq (hscope d hd) (htidy d hd) h.full hfree hpending (hsafe d hd)

end

/-- Such a class is settled after one time: a second time, in the scope with the imports that were asked
for, shortens nothing, fixes nothing and reports nothing. -/
theorem processClass_processClass_of_isSettling {config : EngineConfig} {hierarchy : ClassHierarchy}
    (built : build config .syntactic hierarchy = .ok e) (imports : config.importNames)
    (named : c.isAnonymous = false) (shared : ∀ d ∈ c.docs, d.scope = some scope)
    (tidy : ∀ d ∈ c.docs, d.IsTidy)
    (listable : ∀ p ∈ c.properties, ∀ n ∈ (e.inferProperty p c).toList, n.IsListable)
    (settling : e.IsSettling scope c) :
    let first := e.processClass c ∅
    let later := first.1.1.withPending first.2
    ∀ q, q = first.2 ∨ q = ∅ → e.processClass later q = ((later, ⟨0, []⟩), q) := by
  intro first later q hq
  obtain ⟨hconfig, -, -⟩ := fields built
  have himports : e.config.importNames := by rw [hconfig, imports]
  obtain ⟨⟨hscope, htidy⟩, hfree, hrun, -⟩ := first_import himports shared tidy
  have hmeaning := settling.meaning_eq shared tidy listable himports
  have hkeeps : List.Forall₂ DocSlot.KeepsMeaning (e.fixVarDocs c).1.docs later.docs :=
    hmeaning.imp fun _ _ => DocSlot.keepsMeaning_of_meaning
  have hwhole : ∀ d ∈ (e.fixVarDocs c).1.docs, d.IsWhole := fun d hd =>
    (settling.isSafe_fixVarDocs shared tidy listable d hd).isWhole
  have hmethods : later.methods.map (Strategy.isInstantiating config.inference) =
      c.methods.map (Strategy.isInstantiating config.inference) := by
    have hmarked := hrun.isInstantiating_eq hscope htidy settling.markers
    rwa [hconfig, fixVarDocs, ClassLike.methods_fixVarDocs] at hmarked
  have hvar : (e.fixVarDocs c).1.properties.map (·.doc.varMeaning?) =
      later.properties.map (·.doc.varMeaning?) := by
    have hsame : (e.fixVarDocs c).1.withoutDocs = later.withoutDocs := by
      rw [ClassLike.withoutDocs_withPending, hrun.withoutDocs]
    exact map_eq_map_iff_forall₂.mpr ((ClassLike.forall₂_properties hsame hmeaning).imp
      fun _ _ h => DocSlot.varMeaning?_of_meaning h.2)
  obtain ⟨-, hsettled⟩ :=
    second_time built imports named shared tidy listable hwhole hkeeps hmethods q hq
  exact hsettled.mpr (listsVarTypes_of_meaning built named tidy listable settling.aliases
    (hrun.keepsVarTypes hscope htidy hfree hwhole hkeeps) hvar)

/-- A method that a tag marks, with a class that is imported for its comment, one that is imported for
the type of a property, and one that is declared by an alias. -/
theorem processClass_processClass_marked :
    let e : Engine := ⟨{ importNames := true }, .syntactic, (∅ : ClassHierarchy).isSubtype,
      (∅ : ClassHierarchy).isKnown, .ofOptions default⟩
    let scope := ((NameScope.inNamespace (some "App")).withFile "src/Mailer.php").importAs
      "Psr\\Log\\LoggerInterface" "Log"
    let inject : Method :=
      { name := "inject"
        doc := ⟨some "/**\n * @required\n * @param array<\\Mail\\Filter> $filters Used last.\n */", none⟩
        params := [⟨"transport", some (.nullable (.named "Mail\\Transport" "\\Mail\\Transport")), none, false⟩,
          ⟨"log", some (.ofAlias "Psr\\Log\\LoggerInterface" "Log"), none, false⟩]
        body := [.assignThis "transport" (.var "transport"), .assignThis "log" (.var "log")] }
    let c := ClassLike.withScope scope
      { name := some "App\\Mailer"
        members := [.property { name := "transport" }, .property { name := "log" }, .method inject] }
    let first := e.processClass c ∅
    let later := first.1.1.withPending first.2
    (first.1.2 = ⟨2, ["Mail\\Transport", "Mail\\Filter"]⟩ ∧
      later.docs.filterMap (·.text) = ["/**\n * @var Transport|null\n */".toList,
        "/**\n * @var Log\n */".toList,
        "/**\n * @required\n * @param array<Filter> $filters Used last.\n */".toList]) ∧
      e.processClass later first.2 = ((later, ⟨0, []⟩), first.2) := by
  intro e scope inject c first later
  have hbuilt : build { importNames := true } .syntactic ∅ = .ok e :=
    build_of_valid (by decide +kernel) _ _
  have hshared : ∀ d ∈ c.docs, d.scope = some scope := by decide +kernel
  have htidy : ∀ d ∈ c.docs, d.IsTidy := by decide +kernel
  have hlistable : ∀ p ∈ c.properties, ∀ n ∈ (e.inferProperty p c).toList, n.IsListable := by
    decide +kernel
  have himports : e.importsMet scope c = ["Mail\\Filter", "Mail\\Transport"] := by decide +kernel
  have hfull : scope.IsFull := by decide +kernel
  have hfaithful : ∀ d ∈ c.docs, ∀ content ∈ d.contents, (content.map (·.written)).isFaithful := by
    decide +kernel
  have hsafe : ∀ r ∈ e.namesMet scope c,
      r.IsSafe e.classExists scope ["Mail\\Filter", "Mail\\Transport"] := by decide +kernel
  have hmarkers : ∀ k ∈ e.config.inference.instantiationMarkers, IsMarker k := by decide +kernel
  have haliases : ∀ x ∈ c.declaredClasses, Strategy.isAliased x.1 x.2 →
      x.1 = scope.resolve x.2 ∧ Name.isNamespaced x.2 = false := by decide +kernel
  have hsettling : e.IsSettling scope c := ⟨hfull, hfaithful, himports ▸ hsafe, hmarkers, haliases⟩
  have hagain := processClass_processClass_of_isSettling hbuilt rfl rfl hshared htidy hlistable
    hsettling (e.processClass c ∅).2 (.inl rfl)
  refine ⟨by decide +kernel, ?_⟩
  simp only [later, first]
  exact hagain

end Engine
end DocTypes
