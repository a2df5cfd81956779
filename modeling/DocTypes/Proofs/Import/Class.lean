import DocTypes.Engine
import DocTypes.Proofs.Import.Again
import DocTypes.Proofs.Inference.Blindness

/-!
Shortening the names of a class. Its comments are met one after the other, and what one of them asked
for counts for the next. Once the file has all these imports nothing is left to shorten.
-/
namespace DocTypes
open Text

/-! Lists. -/

/-- A traversal that meets nothing to change. -/
lemma mapM_eq_self {σ α : Type} {f : α → StateM σ α} {st : σ} {xs : List α}
    (h : ∀ x ∈ xs, f x st = (x, st)) : xs.mapM f st = (xs, st) := by
  induction xs with
  | nil => rfl
  | cons x xs ih =>
    have hx : f x st = (x, st) := h x (by simp)
    have hxs : xs.mapM f st = (xs, st) := ih fun y hy => h y (by simp [hy])
    rw [List.mapM_cons]
    change (let r := f x st; let rs := xs.mapM f r.2; (r.1 :: rs.1, rs.2)) = (x :: xs, st)
    rw [hx]
    dsimp only
    rw [hxs]

/-- Two relations between two lists, with what holds of the elements of one. -/
lemma forall₂_and_mem {α β : Type} {R S : α → β → Prop} {xs : List α} {ys : List β}
    (hR : List.Forall₂ R xs ys) (hS : List.Forall₂ S xs ys) :
    List.Forall₂ (fun x y => x ∈ xs ∧ R x y ∧ S x y) xs ys :=
  (List.forall₂_and_left _ _).mpr ⟨fun _ hx => hx, .mp (fun _ _ hR hS => ⟨hR, hS⟩) hR hS⟩

/-- What two relations to the elements of one list tell of the elements of another. -/
lemma forall_mem_of_forall₂ {α β : Type} {R S : α → β → Prop} {P : β → Prop} {xs : List α}
    {ys : List β} (hR : List.Forall₂ R xs ys) (hS : List.Forall₂ S xs ys)
    (h : ∀ x ∈ xs, ∀ y, R x y → S x y → P y) : ∀ y ∈ ys, P y := by
  have hall : List.Forall₂ (fun y _ => P y ∧ True) ys xs :=
    ((forall₂_and_mem hR hS).imp fun x y ⟨hx, hR, hS⟩ => ⟨h x hx y hR hS, trivial⟩).flip
  exact ((List.forall₂_and_left _ _).mp hall).1

/-! One member. -/

namespace Member

@[simp] lemma doc_withDoc (d : DocSlot) (m : Member) : (m.withDoc d).doc = d := by cases m <;> rfl

@[simp] lemma withDoc_doc (m : Member) : m.withDoc m.doc = m := by cases m <;> rfl

@[simp] lemma withDoc_withDoc (d d' : DocSlot) (m : Member) :
    (m.withDoc d).withDoc d' = m.withDoc d' := by cases m <;> rfl

/-- The member differs in its comment only, the names of which were shortened. -/
def IsImport (classExists : Text → Bool) (scope : NameScope) (p : PendingImports)
    (m m' : Member) : Prop :=
  m' = m.withDoc m'.doc ∧ m.doc.IsImport classExists scope p m'.doc

end Member

namespace ClassLike

/-- The comments of a class: its own, then those of its members. -/
def docs (c : ClassLike) : List DocSlot := c.doc :: c.members.map (·.doc)

/-- The class in the scope that has the imports of `p`. -/
def withPending (p : PendingImports) (c : ClassLike) : ClassLike :=
  { c with
    doc := c.doc.withPending p
    members := c.members.map fun m => m.withDoc (m.doc.withPending p) }

lemma docs_withPending (p : PendingImports) (c : ClassLike) :
    (c.withPending p).docs = c.docs.map (·.withPending p) := by
  simp [docs, withPending]

section
variable {R : DocSlot → DocSlot → Prop} {c c' : ClassLike}
  (hsame : c.withoutDocs = c'.withoutDocs) (h : List.Forall₂ R c.docs c'.docs)
include hsame h

/-- What relates the comments of two classes that differ in nothing else relates those of their
members. -/
lemma forall₂_members : List.Forall₂ (fun m m' : Member => m.withDoc default = m'.withDoc default ∧
    R m.doc m'.doc) c.members c'.members := by
  have hmembers := map_eq_map_iff_forall₂.mp (congrArg ClassLike.members hsame)
  obtain ⟨-, hdocs⟩ := List.forall₂_cons.mp h
  rw [List.forall₂_map_left_iff, List.forall₂_map_right_iff] at hdocs
  exact (forall₂_and_mem hmembers hdocs).imp fun _ _ h => h.2

lemma forall₂_properties : List.Forall₂ (fun p p' => p.withoutDoc = p'.withoutDoc ∧ R p.doc p'.doc)
    c.properties c'.properties := by
  refine List.rel_filterMap ?_ (forall₂_members hsame h)
  rintro (p | m) (p' | m') ⟨heq, hR⟩
  · exact .some ⟨Member.property.inj heq, hR⟩
  · cases heq
  · cases heq
  · exact .none

lemma forall₂_methods : List.Forall₂ (fun m m' => m.name = m'.name ∧ R m.doc m'.doc)
    c.methods c'.methods := by
  refine List.rel_filterMap ?_ (forall₂_members hsame h)
  rintro (p | m) (p' | m') ⟨heq, hR⟩
  · exact .none
  · cases heq
  · cases heq
  · have hname : ({ m with doc := default } : Method) = { m' with doc := default } :=
      Member.method.inj heq
    exact .some ⟨congrArg (·.name) hname, hR⟩

end

variable {classExists : Text → Bool} {scope : NameScope} {c c' : ClassLike}

/-- All comments of the class were shortened, one after the other. -/
structure IsImport (classExists : Text → Bool) (scope : NameScope) (p : PendingImports)
    (c c' : ClassLike) : Prop where
  same : c' = { c with doc := c'.doc, members := c'.members }
  doc : c.doc.IsImport classExists scope p c'.doc
  members : List.Forall₂ (Member.IsImport classExists scope p) c.members c'.members

/-- The comments of a class ask for nothing but short names that are free, each in the state that the
one before it left. -/
lemma isImport_importNames (classExists : Text → Bool)
    (hscope : ∀ d ∈ c.docs, d.scope = some scope) (htidy : ∀ d ∈ c.docs, d.IsTidy)
    {st : ImportState} (hfree : st.pending.IsFree scope) :
    let run := c.importNames classExists st
    run.2.pending.IsFree scope ∧ c.IsImport classExists scope run.2.pending run.1 ∧
      ∀ imports, st.pending.names scope ⊆ imports →
        (∀ d ∈ c.docs, TypeRef.importsFor classExists scope d.names ⊆ imports) →
          run.2.pending.names scope ⊆ imports := by
  have key : ∀ (ms : List Member), (∀ m ∈ ms, m.doc.scope = some scope ∧ m.doc.IsTidy) →
      ∀ st : ImportState, st.pending.IsFree scope →
      let run := ms.mapM (m := StateM ImportState) (fun m => do
        return m.withDoc (← m.doc.importNames classExists).1) st
      run.2.pending.IsFree scope ∧ PendingImports.IsWithin scope st.pending run.2.pending ∧
        List.Forall₂ (Member.IsImport classExists scope run.2.pending) ms run.1 ∧
        ∀ imports, st.pending.names scope ⊆ imports →
          (∀ m ∈ ms, TypeRef.importsFor classExists scope m.doc.names ⊆ imports) →
            run.2.pending.names scope ⊆ imports := by
    -- What is pending only grows, so what holds of a member now holds at the end.
    intro ms
    induction ms with
    | nil =>
      exact fun _ st hfree =>
        ⟨hfree, PendingImports.isWithin_refl scope _, .nil, fun _ hst _ => hst⟩
    | cons m ms ih =>
      intro hms st hfree
      rw [List.forall_mem_cons] at hms
      obtain ⟨hfree₁, hwithin₁, hm, hnames₁⟩ :=
        DocSlot.isImport_importNames classExists hms.1.1 hms.1.2 hfree
      obtain ⟨hfree₂, hwithin₂, hrest, hnames₂⟩ := ih hms.2 _ hfree₁
      rw [List.mapM_cons]
      refine ⟨hfree₂, hwithin₁.trans hwithin₂, .cons ⟨?_, ?_⟩ hrest, fun imports hst hall => ?_⟩
      · exact (congrArg m.withDoc (Member.doc_withDoc _ _)).symm
      · have := hm.mono hwithin₂
        rwa [← Member.doc_withDoc (m.doc.importNames classExists st).1.1 m] at this
      · rw [List.forall_mem_cons] at hall
        exact hnames₂ imports (hnames₁ imports hst hall.1) hall.2
  rw [docs, List.forall_mem_cons, List.forall_mem_map] at hscope htidy
  obtain ⟨hfree₁, -, hdoc, hnames₁⟩ :=
    DocSlot.isImport_importNames classExists hscope.1 htidy.1 hfree
  obtain ⟨hfree₂, hwithin, hmembers, hnames₂⟩ :=
    key c.members (fun m hm => ⟨hscope.2 m hm, htidy.2 m hm⟩) _ hfree₁
  refine ⟨hfree₂, ⟨rfl, hdoc.mono hwithin, hmembers⟩, fun imports hst hall => ?_⟩
  rw [docs, List.forall_mem_cons, List.forall_mem_map] at hall
  exact hnames₂ imports (hnames₁ imports hst hall.1) hall.2

lemma IsImport.docs {p : PendingImports} (h : c.IsImport classExists scope p c') :
    List.Forall₂ (DocSlot.IsImport classExists scope p) c.docs c'.docs := by
  refine .cons h.doc ?_
  rw [List.forall₂_map_left_iff, List.forall₂_map_right_iff]
  exact h.members.imp fun _ _ hm => hm.2

lemma IsImport.isTidy {p : PendingImports} (h : c.IsImport classExists scope p c')
    (hscope : ∀ d ∈ c.docs, d.scope = some scope) (htidy : ∀ d ∈ c.docs, d.IsTidy) :
    ∀ d ∈ (c'.withPending p).docs, d.IsTidy := by
  rw [docs_withPending, List.forall_mem_map]
  have hdocs := IsImport.docs h
  exact forall_mem_of_forall₂ hdocs hdocs fun d hd d' hd' _ =>
    (hd'.isTidy (hscope d hd) (htidy d hd)).2

lemma IsImport.withoutDocs {p : PendingImports} (h : c.IsImport classExists scope p c') :
    c'.withoutDocs = c.withoutDocs := by
  have hmembers : c'.members.map (·.withDoc default) = c.members.map (·.withDoc default) := by
    refine (map_eq_map_iff_forall₂.mpr (h.members.imp fun m m' hm => ?_)).symm
    rw [hm.1, Member.withDoc_withDoc]
  have hsame := congrArg ClassLike.withoutDocs h.same
  rw [hsame, ClassLike.withoutDocs, hmembers]
  rfl

lemma withoutDocs_withPending (p : PendingImports) (c : ClassLike) :
    (c.withPending p).withoutDocs = c.withoutDocs := by
  simp [ClassLike.withoutDocs, withPending]

/-- In the scope with the imports no comment of the class has anything left to shorten. -/
theorem IsImport.importNames_again {p q : PendingImports} (h : c.IsImport classExists scope p c')
    (hscope : ∀ d ∈ c.docs, d.scope = some scope) (htidy : ∀ d ∈ c.docs, d.IsTidy)
    (hfree : p.IsFree scope) (hq : q = p ∨ q = ∅) (hwhole : ∀ d ∈ c.docs, d.IsWhole)
    (hmeaning : List.Forall₂ DocSlot.KeepsMeaning c.docs (c'.withPending p).docs)
    (recorded : List Text) :
    (c'.withPending p).importNames classExists ⟨q, recorded⟩ =
      (c'.withPending p, ⟨q, recorded⟩) := by
  rw [docs_withPending, List.forall₂_map_right_iff] at hmeaning
  have hidle := forall_mem_of_forall₂ h.docs hmeaning fun d hd d' himport hkeeps =>
    himport.importNames_again (hscope d hd) (htidy d hd) hfree hq (hwhole d hd) hkeeps recorded
  rw [ClassLike.docs, List.forall_mem_cons, List.forall_mem_map] at hidle
  obtain ⟨⟨hdoc, hstate⟩, hmembers⟩ := hidle
  have hrest : (c'.withPending p).members.mapM (m := StateM ImportState) (fun m => do
      return m.withDoc (← m.doc.importNames classExists).1) ⟨q, recorded⟩ =
        ((c'.withPending p).members, ⟨q, recorded⟩) := by
    refine mapM_eq_self fun m hm => ?_
    obtain ⟨m', hm', rfl⟩ := List.mem_map.mp hm
    obtain ⟨hm₁, hm₂⟩ := hmembers m' hm'
    rw [← Member.doc_withDoc (m'.doc.withPending p) m'] at hm₁ hm₂
    generalize m'.withDoc (m'.doc.withPending p) = m at *
    change (m.withDoc (m.doc.importNames classExists ⟨q, recorded⟩).1.1,
      (m.doc.importNames classExists ⟨q, recorded⟩).2) = (m, ⟨q, recorded⟩)
    rw [hm₁, hm₂, Member.withDoc_doc]
  change ((c'.withPending p).doc.importNames classExists ⟨q, recorded⟩).1.1 =
    (c'.withPending p).doc at hdoc
  change ((c'.withPending p).doc.importNames classExists ⟨q, recorded⟩).2 = _ at hstate
  generalize c'.withPending p = later at *
  change (let first := later.doc.importNames classExists ⟨q, recorded⟩
    let rest := later.members.mapM (m := StateM ImportState) (fun m => do
      return m.withDoc (← m.doc.importNames classExists).1) first.2
    ({ later with doc := first.1.1, members := rest.1 }, rest.2)) = (later, ⟨q, recorded⟩)
  dsimp only
  rw [hstate, hrest, hdoc]

end ClassLike
end DocTypes
