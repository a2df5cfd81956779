import DocTypes.Proofs.Engine
import DocTypes.Proofs.Import.Session

/-!
What shortening the names of a class reports, next to what is pending afterwards. Each request is
recorded and so reported, but a scope that imports the class already, under whatever alias, turns the
request down without a word.
-/
namespace DocTypes
open Text

/-- The scope imports the class `name`, under whatever alias. -/
def NameScope.isImported (s : NameScope) (name : Text) : Bool :=
  s.imports.values.any (eqIgnoreCase · (Name.unrooted name))

/-! The effect of requests. -/

/-- A request makes nothing pending but its own name, in its own file, and only where the scope does
not import it. -/
lemma PendingImports.mem_ofFile_request {p : PendingImports} {scope : NameScope}
    {key n name : Text} : n ∈ (p.request scope name).ofFile key ↔ n ∈ p.ofFile key ∨
      (scope.fileKey = key ∧ scope.isImported name = false ∧ Name.unrooted name = n) := by
  unfold request
  change n ∈ (if scope.isImported name = true then p else _).ofFile key ↔ _
  cases scope.isImported name with
  | true => simp
  | false =>
    by_cases hkey : key = scope.fileKey
    · simp [ofFile, hkey, eq_comm]
    · simp [ofFile, hkey, eq_comm]

namespace ImportState

/-- The state after a list of requests. -/
def recordAll (qs : List (NameScope × Text)) (st : ImportState) : ImportState :=
  qs.foldl (fun st q => st.record q.1 q.2) st

variable {qs : List (NameScope × Text)} {st : ImportState} {key n : Text}

lemma recordAll_cons (q : NameScope × Text) (qs : List (NameScope × Text)) (st : ImportState) :
    st.recordAll (q :: qs) = (st.record q.1 q.2).recordAll qs := rfl

lemma mem_recorded_record {scope : NameScope} {name : Text} :
    n ∈ (st.record scope name).recorded ↔ n ∈ st.recorded ∨ name = n := by
  rw [record]
  dsimp only
  split
  · rename_i h
    rw [List.contains_iff_mem] at h
    exact ⟨.inl, fun hn => hn.elim id fun hn => hn ▸ h⟩
  · simp [eq_comm]

/-- Every name that is requested is recorded. -/
lemma mem_recorded_recordAll :
    n ∈ (st.recordAll qs).recorded ↔ n ∈ st.recorded ∨ ∃ q ∈ qs, q.2 = n := by
  induction qs generalizing st with
  | nil => simp [recordAll]
  | cons q qs ih =>
    rw [recordAll_cons, ih, mem_recorded_record]
    simp [or_assoc]

/-- A name is pending if one request for it was not turned down. -/
lemma mem_pending_recordAll : n ∈ (st.recordAll qs).pending.ofFile key ↔
    n ∈ st.pending.ofFile key ∨ ∃ q ∈ qs,
      q.1.fileKey = key ∧ q.1.isImported q.2 = false ∧ Name.unrooted q.2 = n := by
  induction qs generalizing st with
  | nil => simp [recordAll]
  | cons q qs ih =>
    rw [recordAll_cons, ih]
    have hstep : n ∈ (st.record q.1 q.2).pending.ofFile key ↔ _ :=
      PendingImports.mem_ofFile_request
    rw [hstep]
    simp [or_assoc]

end ImportState

/-! The requests of a class. -/

/-- What is requested is a full name. -/
lemma TypeRef.unrooted_of_mem_requests {classExists : Text → Bool} {scope : NameScope}
    {rs : List TypeRef} {st : ImportState} {n : Text}
    (h : n ∈ requests classExists scope rs st) : Name.unrooted n = n := by
  induction rs generalizing st with
  | nil => simp [requests] at h
  | cons r rs ih =>
    rw [requests, List.mem_append] at h
    rcases h with h | h
    · rw [Option.mem_toList, request?, Option.ite_none_right_eq_some] at h
      rw [← Option.some.inj h.2, TypeRef.full, Name.unrooted_unrooted]
    · exact ih h

namespace ImportStep

variable {classExists : Text → Bool} {slots : List DocSlot} {st : ImportState}

/-- Shortening comment after comment is what the requests along the way do. -/
lemma run_importNames (classExists : Text → Bool) (slots : List DocSlot) (st : ImportState) :
    run classExists (slots.map .importNames) st =
      st.recordAll (allRequests classExists (slots.map .importNames) st) := by
  induction slots generalizing st with
  | nil => rfl
  | cons s slots ih =>
    have hstep : apply classExists (.importNames s) st =
        st.recordAll (requests classExists (.importNames s) st) := by
      rw [apply, requests, ImportState.recordAll, List.foldl_map]
      exact DocSlot.importNames_eq_foldl_requests classExists s st
    rw [List.map_cons, allRequests, ImportState.recordAll, List.foldl_append]
    change run classExists (slots.map .importNames) (apply classExists (.importNames s) st) =
      ImportState.recordAll _ (st.recordAll _)
    rw [ih, ← hstep]

/-- A request comes from one of the comments, and is for its scope. -/
lemma of_mem_allRequests {q : NameScope × Text}
    (h : q ∈ allRequests classExists (slots.map .importNames) st) :
    Name.unrooted q.2 = q.2 ∧ ∃ s ∈ slots, q.1 = s.scope.getD .global := by
  induction slots generalizing st with
  | nil => simp [allRequests] at h
  | cons s slots ih =>
    rw [List.map_cons, allRequests, List.mem_append] at h
    rcases h with h | h
    · obtain ⟨n, hn, rfl⟩ := List.mem_map.mp h
      exact ⟨TypeRef.unrooted_of_mem_requests hn, s, by simp, rfl⟩
    · obtain ⟨hroot, s', hs', hq⟩ := ih h
      exact ⟨hroot, s', List.mem_cons_of_mem s hs', hq⟩

end ImportStep

namespace ClassLike

/-- All imports that are asked for when the names of the class are shortened, each with the scope of
the comment that asks. -/
def requests (classExists : Text → Bool) (c : ClassLike) (st : ImportState) :
    List (NameScope × Text) :=
  ImportStep.allRequests classExists (c.docs.map .importNames) st

lemma snd_importNames (classExists : Text → Bool) (c : ClassLike) (st : ImportState) :
    (c.importNames classExists st).2 = st.recordAll (c.requests classExists st) := by
  have key : ∀ (ms : List Member) (st : ImportState),
      (ms.mapM (m := StateM ImportState) (fun m => do
        return m.withDoc (← m.doc.importNames classExists).1) st).2 =
      ImportStep.run classExists ((ms.map (·.doc)).map .importNames) st := by
    intro ms
    induction ms with
    | nil => exact fun _ => rfl
    | cons m ms ih =>
      intro st
      rw [List.mapM_cons]
      exact ih (m.doc.importNames classExists st).2
  rw [requests, ← ImportStep.run_importNames]
  exact key c.members (c.doc.importNames classExists st).2

variable {classExists : Text → Bool} {c : ClassLike} {n : Text}

lemma of_mem_requests {st : ImportState} {q : NameScope × Text}
    (h : q ∈ c.requests classExists st) :
    Name.unrooted q.2 = q.2 ∧ ∃ d ∈ c.docs, q.1 = d.scope.getD .global :=
  ImportStep.of_mem_allRequests h

/-- The name is pending for the file of one of the comments of the class. -/
def HasPending (c : ClassLike) (p : PendingImports) (n : Text) : Prop :=
  ∃ d ∈ c.docs, n ∈ p.ofFile (d.scope.getD .global).fileKey

lemma mem_recorded_importNames :
    n ∈ (c.importNames classExists ∅).2.recorded ↔ ∃ q ∈ c.requests classExists ∅, q.2 = n := by
  rw [snd_importNames, ImportState.mem_recorded_recordAll]
  exact or_iff_right List.not_mem_nil

/-- Nothing that was not requested is pending, and nothing the scope of which imports it. -/
lemma mem_pending_importNames {key : Text} :
    n ∈ (c.importNames classExists ∅).2.pending.ofFile key ↔
      ∃ q ∈ c.requests classExists ∅,
        q.1.fileKey = key ∧ q.1.isImported q.2 = false ∧ q.2 = n := by
  rw [snd_importNames, ImportState.mem_pending_recordAll]
  refine (or_iff_right List.not_mem_nil).trans ?_
  constructor
  · rintro ⟨q, hq, hkey, hnew, rfl⟩
    rw [(of_mem_requests hq).1]
    exact ⟨q, hq, hkey, hnew, rfl⟩
  · rintro ⟨q, hq, hkey, hnew, rfl⟩
    exact ⟨q, hq, hkey, hnew, (of_mem_requests hq).1⟩

lemma hasPending_importNames_iff :
    c.HasPending (c.importNames classExists ∅).2.pending n ↔
      ∃ q ∈ c.requests classExists ∅, q.1.isImported q.2 = false ∧ q.2 = n := by
  constructor
  · rintro ⟨d, -, hd⟩
    obtain ⟨q, hq, -, hnew, hn⟩ := mem_pending_importNames.mp hd
    exact ⟨q, hq, hnew, hn⟩
  · rintro ⟨q, hq, hnew, hn⟩
    obtain ⟨-, d, hd, hscope⟩ := of_mem_requests hq
    exact ⟨d, hd, mem_pending_importNames.mpr ⟨q, hq, by rw [hscope], hnew, hn⟩⟩

end ClassLike

namespace Engine

/-- What is reported for a class is what was asked for, and is pending exactly as far as one scope that
asks for it does not import it yet. In one common scope these are the names the scope does not
import. Processing a class tells what shortening its fixed comments tells. -/
theorem importDocNames_reported_iff (e : Engine) (c : ClassLike) :
    let run := e.importDocNames c ∅
    let reported := run.1.2
    let requests := c.requests e.classExists ∅
    (∀ n, n ∈ reported ↔ ∃ q ∈ requests, q.2 = n) ∧
      (∀ key n, n ∈ run.2.ofFile key →
        n ∈ reported ∧ ∃ d ∈ c.docs, (d.scope.getD .global).fileKey = key) ∧
      ((∀ n ∈ reported, c.HasPending run.2 n) ↔
        ∀ n ∈ reported, ∃ q ∈ requests, q.1.isImported n = false ∧ q.2 = n) ∧
      (∀ scope, (∀ d ∈ c.docs, d.scope = some scope) →
        ∀ n ∈ reported, c.HasPending run.2 n ↔ scope.isImported n = false) ∧
      ((e.processClass c ∅).1.2.importedNames, (e.processClass c ∅).2) =
        if e.config.importNames then
          let run := e.importDocNames (e.fixVarDocs c).1 ∅
          (run.1.2, run.2)
        else ([], ∅) := by
  intro run reported requests
  have hreported : ∀ n, n ∈ reported ↔ ∃ q ∈ requests, q.2 = n :=
    fun n => ClassLike.mem_recorded_importNames
  have hpending : ∀ n, c.HasPending run.2 n ↔
      ∃ q ∈ requests, q.1.isImported n = false ∧ q.2 = n := by
    intro n
    refine ClassLike.hasPending_importNames_iff.trans ?_
    exact exists_congr fun q => and_congr_right fun _ =>
      and_congr_left fun h => by rw [h]
  refine ⟨hreported, fun key n hn => ?_, ?_, fun scope hscope n hn => ?_, ?_⟩
  · obtain ⟨q, hq, hkey, -, hname⟩ := ClassLike.mem_pending_importNames.mp hn
    obtain ⟨-, d, hd, hscope⟩ := ClassLike.of_mem_requests hq
    exact ⟨(hreported n).mpr ⟨q, hq, hname⟩, d, hd, by rw [← hscope, hkey]⟩
  · exact forall₂_congr fun n _ => hpending n
  · have hall : ∀ q ∈ requests, q.1 = scope := by
      intro q hq
      obtain ⟨-, d, hd, hq⟩ := ClassLike.of_mem_requests hq
      rw [hq, hscope d hd]
      rfl
    rw [hpending]
    constructor
    · rintro ⟨q, hq, hnew, -⟩
      rwa [← hall q hq]
    · intro hnew
      obtain ⟨q, hq, hname⟩ := (hreported n).mp hn
      exact ⟨q, hq, by rwa [hall q hq], hname⟩
  · rw [processClass]
    cases e.config.importNames <;> rfl

/-- Of two classes the one that the scope imports under another name is not pending. -/
theorem importDocNames_reported_and_pending :
    let e : Engine := ⟨{ importNames := true }, .syntactic, (∅ : ClassHierarchy).isSubtype,
      (∅ : ClassHierarchy).isKnown, .ofOptions default⟩
    let scope := ((NameScope.inNamespace (some "App")).withFile "a.php").importAs "A\\B" "C"
    let c := ClassLike.withScope scope
      { name := some "App\\X"
        members := [.property { name := "p", doc := ⟨some "/** @var \\A\\B */", none⟩ },
          .property { name := "q", doc := ⟨some "/** @var \\D\\E[] */", none⟩ }] }
    (e.importDocNames c ∅).1.2 = ["A\\B".toList, "D\\E".toList] ∧
      ¬c.HasPending (e.importDocNames c ∅).2 "A\\B" ∧
      c.HasPending (e.importDocNames c ∅).2 "D\\E" := by
  intro e scope c
  have hreported : (e.importDocNames c ∅).1.2 = ["A\\B".toList, "D\\E".toList] := by
    decide +kernel
  have hscope : ∀ d ∈ c.docs, d.scope = some scope := by decide +kernel
  obtain ⟨-, -, -, hshared, -⟩ := importDocNames_reported_iff e c
  have hfirst : "A\\B".toList ∈ (e.importDocNames c ∅).1.2 := by
    rw [hreported]
    exact List.mem_cons_self
  have hsecond : "D\\E".toList ∈ (e.importDocNames c ∅).1.2 := by
    rw [hreported]
    exact List.mem_cons_of_mem _ List.mem_cons_self
  have himported : scope.isImported "A\\B" = true ∧ scope.isImported "D\\E" = false := by
    decide +kernel
  have hmissing : ¬c.HasPending (e.importDocNames c ∅).2 "A\\B" := by
    rw [hshared scope hscope _ hfirst, himported.1]
    decide
  have hpending : c.HasPending (e.importDocNames c ∅).2 "D\\E" := by
    rw [hshared scope hscope _ hsecond, himported.2]
  exact ⟨hreported, hmissing, hpending⟩

/-- A class that the scope imports under another name is reported, and not pending. -/
theorem importDocNames_reports_aliased_import :
    let e : Engine := ⟨{ importNames := true }, .syntactic, (∅ : ClassHierarchy).isSubtype,
      (∅ : ClassHierarchy).isKnown, .ofOptions default⟩
    let scope := ((NameScope.inNamespace (some "App")).withFile "a.php").importAs "A\\B" "C"
    let c := ClassLike.withScope scope
      { name := some "App\\X"
        members := [.property { name := "p", doc := ⟨some "/** @var \\A\\B */", none⟩ }] }
    build { importNames := true } .syntactic ∅ = .ok e ∧
      (e.importDocNames c ∅).1.2 = ["A\\B".toList] ∧
      (e.processClass c ∅).1.2.importedNames = ["A\\B".toList] ∧
      ∀ key, ((e.importDocNames c ∅).2.ofFile key).toList = [] := by
  intro e scope c
  have hrun : (e.importDocNames c ∅).1.2 = ["A\\B".toList] ∧
      (e.processClass c ∅).1.2.importedNames = ["A\\B".toList] ∧
      (e.importDocNames c ∅).2 = ∅ := by decide +kernel
  obtain ⟨hreported, himported, hpending⟩ := hrun
  refine ⟨build_of_valid (by decide +kernel) _ _, hreported, himported, fun key => ?_⟩
  rw [hpending]
  rfl

end Engine
end DocTypes
