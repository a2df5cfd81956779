import DocTypes.Proofs.Inference.Names
import DocTypes.Proofs.Text.Lines

/-!
The aliases among the names that inference finds. Each is declared for a parameter, where it is written
in the place of a class.
-/
namespace DocTypes
open Text

namespace TypeHint

mutual

/-- The words of a declaration. -/
def words : TypeHint → List Text
  | .word w => [w]
  | .named _ _ => []
  | .nullable h => h.words
  | .union hs => wordsList hs

def wordsList : List TypeHint → List Text
  | [] => []
  | h :: hs => h.words ++ wordsList hs

end

mutual

/-- The classes of a declaration, each by its full name and as it is written. -/
def classes : TypeHint → List (Text × Text)
  | .word _ => []
  | .named full written => [(full, written)]
  | .nullable h => h.classes
  | .union hs => classesList hs

def classesList : List TypeHint → List (Text × Text)
  | [] => []
  | h :: hs => h.classes ++ classesList hs

end

end TypeHint

namespace Strategy

/-- An alias is neither the full name nor the end of it behind a backslash. -/
lemma isAliased_iff {full written : Text} : isAliased full written ↔
    Name.unrooted written ≠ full ∧ ¬ '\\' :: Name.unrooted written <:+ full := by
  rw [isAliased, Bool.and_eq_true, bne_iff_ne, Bool.not_eq_true', ← Bool.not_eq_true, endsWith_iff]
  rfl

/-- A class, by an alias or absolute. -/
def className (full written : Text) : TypeName :=
  if isAliased full written then .aliased written else .plain ('\\' :: full)

mutual

theorem mem_hintNames {n : TypeName} : (h : TypeHint) → (n ∈ hintNames h ↔
    (∃ w ∈ h.words, n = .plain (lower w)) ∨ ∃ x ∈ h.classes, n = className x.1 x.2)
  | .word w => by simp [hintNames, TypeHint.words, TypeHint.classes]
  | .named full written => by
    have hnames : hintNames (.named full written) = [className full written] := by
      rw [hintNames, className]
      split <;> rfl
    simp [hnames, TypeHint.words, TypeHint.classes]
  | .nullable h => mem_hintNames h
  | .union hs => mem_hintNamesList hs

theorem mem_hintNamesList {n : TypeName} : (hs : List TypeHint) → (n ∈ hintNamesList hs ↔
    (∃ w ∈ TypeHint.wordsList hs, n = .plain (lower w)) ∨
      ∃ x ∈ TypeHint.classesList hs, n = className x.1 x.2)
  | [] => by simp [hintNamesList, TypeHint.wordsList, TypeHint.classesList]
  | h :: hs => by
    rw [hintNamesList, List.mem_append, mem_hintNames h, mem_hintNamesList hs]
    simp only [TypeHint.wordsList, TypeHint.classesList, List.mem_append]
    grind

end

/-- The name is an alias that is written for one of the classes, or none. -/
def IsWrittenFor (classes : List (Text × Text)) (n : TypeName) : Prop :=
  n.isAlias → ∃ x ∈ classes, n.text = x.2 ∧ isAliased x.1 x.2

lemma IsWrittenFor.mono {classes classes' : List (Text × Text)} (h : classes ⊆ classes')
    {n : TypeName} (hn : IsWrittenFor classes n) : IsWrittenFor classes' n := by
  intro ha
  obtain ⟨x, hx, hwritten⟩ := hn ha
  exact ⟨x, h hx, hwritten⟩

lemma isWrittenFor_hintNames (h : TypeHint) : ∀ n ∈ hintNames h, IsWrittenFor h.classes n := by
  intro n hn halias
  rcases (mem_hintNames h).mp hn with ⟨w, -, rfl⟩ | ⟨x, hx, rfl⟩
  · cases halias
  · rw [className] at halias ⊢
    split at halias
    · rename_i haliased
      rw [if_pos haliased]
      exact ⟨x, hx, rfl, haliased⟩
    · cases halias

end Strategy

/-! Evidence. -/

/-- Types are told by full names. -/
lemma isAlias_typeSet (t : StaticType) : ∀ n ∈ t.typeSet.toList, n.isAlias = false := by
  intro n hn
  obtain ⟨s, -, rfl⟩ := StaticType.mem_typeSet.mp hn
  rfl

lemma isAlias_evidenceTypes (evidence : OrderedSet StaticType) (defaultValue : Option Expr) :
    ∀ n ∈ (evidenceTypes evidence defaultValue).toList, n.isAlias = false := by
  rw [evidenceTypes]
  split
  · exact List.forall_mem_nil _
  · exact isAlias_typeSet _

lemma isAlias_refinedArray (evidence : OrderedSet StaticType) :
    ∀ n ∈ (Strategy.refinedArray evidence).toList, n.isAlias = false := by
  rw [Strategy.refinedArray]
  split
  · decide
  · exact isAlias_typeSet _

/-- The classes that are declared for the parameters of the methods. -/
def ClassLike.declaredClasses (c : ClassLike) : List (Text × Text) :=
  c.methods.flatMap fun m => (m.params.filterMap (·.hint)).flatMap (·.classes)

/-- An alias that is found for a property is written in a declaration. -/
theorem isWrittenFor_inferIn (o : InferenceOptions) (ctx : InferenceContext) (c : ClassLike)
    (p : Property) : ∀ n ∈ ((Inferer.ofOptions o).inferIn p c ctx).toList,
      Strategy.IsWrittenFor c.declaredClasses n := by
  have hplain : ∀ n : TypeName, n.isAlias = false → Strategy.IsWrittenFor c.declaredClasses n :=
    fun n hn ha => by simp [hn] at ha
  refine forall_inferIn (hplain _ rfl) (fun n hn => hplain n (isAlias_evidenceTypes _ _ n hn))
    (fun m _ n hn => hplain n (isAlias_evidenceTypes _ _ n hn))
    (fun m _ n hn => hplain n (isAlias_refinedArray _ n hn)) (fun m hm q hq h hh n hn => ?_) o
  refine (Strategy.isWrittenFor_hintNames h n hn).mono fun x hx => ?_
  exact List.mem_flatMap.mpr ⟨m, hm, List.mem_flatMap.mpr
    ⟨h, List.mem_filterMap.mpr ⟨q, hq, hh⟩, hx⟩⟩

end DocTypes
