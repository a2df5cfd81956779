import DocTypes.Proofs.Import.Again
import Mathlib.Data.List.Nodup

/-!
Sessions of shortening. One state of imports goes through the comments of any number of declarations,
and between them what is pending may be handed over and the record may be emptied. Whatever the order,
no two imports that are pending for a file have the same short name.
-/
namespace DocTypes
open Text

/-! What a run asks for. -/

namespace TypeRef

/-- The imports that are asked for along a run over names. -/
def requests (classExists : Text → Bool) (scope : NameScope) :
    List TypeRef → ImportState → List Text
  | [], _ => []
  | r :: rs, st => (r.request? classExists scope st).toList ++
      requests classExists scope rs (r.shorten classExists scope st).2

/-- What is asked for along a run is no alias of the scope. -/
lemma importedAs?_of_mem_requests (classExists : Text → Bool) (scope : NameScope)
    (rs : List TypeRef) (st : ImportState) :
    ∀ n ∈ requests classExists scope rs st, scope.importedAs? (Name.short n) = none := by
  induction rs generalizing st with
  | nil => simp [requests]
  | cons r rs ih =>
    rw [requests, List.forall_mem_append]
    refine ⟨fun n hn => ?_, ih _⟩
    exact PendingImports.importedAs?_of_free (of_request? (Option.mem_toList.mp hn))

end TypeRef

/-- The state at the end of a run is what its requests leave. -/
lemma Steps.eq_foldl_requests {classExists : Text → Bool} {scope : NameScope}
    {st st' : ImportState} {ps : List (TypeRef × TypeRef)}
    (h : Steps (TypeRef.shorten classExists scope) st ps st') :
    st' = (TypeRef.requests classExists scope (ps.map Prod.fst) st).foldl
      (fun st n => st.record scope n) st := by
  induction h with
  | nil st => rfl
  | cons _ ih =>
    rw [List.map_cons, TypeRef.requests, List.foldl_append, ← TypeRef.snd_shorten]
    exact ih

namespace DocSlot

/-- The imports that are asked for when the names of the comment are shortened. -/
def requests (classExists : Text → Bool) (s : DocSlot) (st : ImportState) : List Text :=
  TypeRef.requests classExists (s.scope.getD .global) s.names st

/-- Shortening the names of a comment is a run over them. -/
lemma exists_steps_importNames (classExists : Text → Bool) (s : DocSlot) (st : ImportState) :
    ∃ ps : List (TypeRef × TypeRef), ps.map Prod.fst = s.names ∧
      Steps (TypeRef.shorten classExists (s.scope.getD .global)) st ps
        (s.importNames classExists st).2 := by
  cases hs : s.text with
  | none =>
    have hnames : s.names = [] := by
      rw [names, comment?, hs]
      rfl
    rw [importNames_none hs, hnames]
    exact ⟨[], rfl, .nil st⟩
  | some text =>
    have hc : s.comment? = some (.read text s.scope) := by
      rw [comment?, hs]
      rfl
    obtain ⟨rs, hd, -, hsteps⟩ := DocTree.exists_shorten classExists (s.scope.getD .global)
      (DocComment.read text s.scope).tree st
    refine ⟨rs.flatMap (·.content.names), ?_, ?_⟩
    · rw [names, hc]
      exact (DocTree.names_of_entries Prod.fst hd).symm
    · rw [importNames, hc]
      exact hsteps

lemma importNames_eq_foldl_requests (classExists : Text → Bool) (s : DocSlot)
    (st : ImportState) : (s.importNames classExists st).2 =
      (s.requests classExists st).foldl (fun st n => st.record (s.scope.getD .global) n) st := by
  obtain ⟨ps, hnames, hsteps⟩ := exists_steps_importNames classExists s st
  rw [hsteps.eq_foldl_requests, hnames]
  rfl

end DocSlot

/-! What requests keep. -/

namespace ImportState

variable {classExists : Text → Bool} {scope : NameScope} {st st' : ImportState}

/-- No two imports pending for a file have the same short name, and no name is recorded twice. -/
structure IsDistinct (st : ImportState) : Prop where
  shorts : ∀ key, (st.pending.ofFile key).toList.Pairwise fun x y =>
    eqIgnoreCase (Name.short x) (Name.short y) = false
  recorded : st.recorded.Nodup

lemma isDistinct_empty : (∅ : ImportState).IsDistinct := ⟨fun _ => .nil, .nil⟩

lemma isDistinct_record (h : st.IsDistinct) {name : Text}
    (hfree : st.pending.isShortTaken scope name = false) : (st.record scope name).IsDistinct := by
  refine ⟨fun key => ?_, ?_⟩
  · by_cases hkey : key = scope.fileKey
    · subst hkey
      exact PendingImports.pairwise_request (h.shorts _) hfree
    · rw [record, PendingImports.ofFile_request_of_ne hkey]
      exact h.shorts key
  · rw [record]
    dsimp only
    split
    · exact h.recorded
    · rename_i hnew
      rw [List.contains_iff_mem] at hnew
      rw [← List.concat_eq_append]
      exact List.Nodup.concat hnew h.recorded

lemma isDistinct_shorten (h : st.IsDistinct) (classExists : Text → Bool) (scope : NameScope)
    (r : TypeRef) : (r.shorten classExists scope st).2.IsDistinct := by
  rw [TypeRef.snd_shorten]
  cases hr : r.request? classExists scope st with
  | none => exact h
  | some name => exact isDistinct_record h (TypeRef.of_request? hr)

lemma IsDistinct.steps {ps : List (TypeRef × TypeRef)} (h : st.IsDistinct)
    (hs : Steps (TypeRef.shorten classExists scope) st ps st') : st'.IsDistinct := by
  induction hs with
  | nil st => exact h
  | cons _ ih => exact ih (isDistinct_shorten h classExists scope _)

end ImportState

/-! Whole sessions. -/

/-- What is done with one state of imports. -/
inductive ImportStep where
  | importNames (s : DocSlot)
  /-- The pending imports are handed over. -/
  | drain
  /-- The record of imported names is emptied. -/
  | reset

namespace ImportStep

def apply (classExists : Text → Bool) : ImportStep → ImportState → ImportState
  | .importNames s, st => (s.importNames classExists st).2
  | .drain, st => { st with pending := ∅ }
  | .reset, st => { st with recorded := [] }

/-- The imports that the step asks for, each with the scope for which it is asked for. -/
def requests (classExists : Text → Bool) : ImportStep → ImportState → List (NameScope × Text)
  | .importNames s, st => (s.requests classExists st).map ((s.scope.getD .global, ·))
  | .drain, _ => []
  | .reset, _ => []

/-- The state after the steps. -/
def run (classExists : Text → Bool) (steps : List ImportStep) (st : ImportState) : ImportState :=
  steps.foldl (fun st step => step.apply classExists st) st

/-- All imports that the steps ask for. -/
def allRequests (classExists : Text → Bool) :
    List ImportStep → ImportState → List (NameScope × Text)
  | [], _ => []
  | step :: steps, st => step.requests classExists st ++
      allRequests classExists steps (step.apply classExists st)

variable {classExists : Text → Bool} {st : ImportState}

lemma isDistinct_apply (h : st.IsDistinct) (classExists : Text → Bool) (step : ImportStep) :
    (step.apply classExists st).IsDistinct := by
  cases step with
  | importNames s =>
    obtain ⟨ps, -, hsteps⟩ := DocSlot.exists_steps_importNames classExists s st
    exact h.steps hsteps
  | drain => exact ⟨fun _ => .nil, h.recorded⟩
  | reset => exact ⟨h.shorts, .nil⟩

lemma isDistinct_run (h : st.IsDistinct) (classExists : Text → Bool) (steps : List ImportStep) :
    (run classExists steps st).IsDistinct := by
  induction steps generalizing st with
  | nil => exact h
  | cons step steps ih => exact ih (isDistinct_apply h classExists step)

lemma importedAs?_of_mem_requests (classExists : Text → Bool) (step : ImportStep)
    (st : ImportState) :
    ∀ q ∈ step.requests classExists st, q.1.importedAs? (Name.short q.2) = none := by
  cases step with
  | importNames s =>
    intro q hq
    obtain ⟨n, hn, rfl⟩ := List.mem_map.mp hq
    exact TypeRef.importedAs?_of_mem_requests classExists _ s.names st n hn
  | drain => simp [requests]
  | reset => simp [requests]

lemma importedAs?_of_mem_allRequests (classExists : Text → Bool) (steps : List ImportStep)
    (st : ImportState) :
    ∀ q ∈ allRequests classExists steps st, q.1.importedAs? (Name.short q.2) = none := by
  induction steps generalizing st with
  | nil => simp [allRequests]
  | cons step steps ih =>
    rw [allRequests, List.forall_mem_append]
    exact ⟨importedAs?_of_mem_requests classExists step st, ih _⟩

/-- After any session that started with nothing pending, the imports that are pending for a file differ
in their short names, no name is recorded twice, and no import was asked for under an alias of the
scope; where a request is what adds to the pending imports and to the record. -/
theorem pending_distinct_run (classExists : Text → Bool) (steps : List ImportStep) :
    (∀ key, ((run classExists steps ∅).pending.ofFile key).toList.Pairwise fun x y =>
        eqIgnoreCase (Name.short x) (Name.short y) = false) ∧
      (run classExists steps ∅).recorded.Nodup ∧
      (∀ q ∈ allRequests classExists steps ∅, q.1.importedAs? (Name.short q.2) = none) ∧
      ∀ (s : DocSlot) (st : ImportState), apply classExists (.importNames s) st =
        (requests classExists (.importNames s) st).foldl (fun st q => st.record q.1 q.2) st := by
  have hdistinct := isDistinct_run ImportState.isDistinct_empty classExists steps
  refine ⟨hdistinct.shorts, hdistinct.recorded, importedAs?_of_mem_allRequests _ _ _, ?_⟩
  intro s st
  rw [apply, requests, List.foldl_map]
  exact DocSlot.importNames_eq_foldl_requests classExists s st

end ImportStep
end DocTypes
