import DocTypes.Proofs.Import.Aliases

/-!
Which imports, classes and words let a name keep its meaning. A name that is left alone loses it if
another class is imported for its first segment. A short name has it unless it is a reserved word or
is held by another class: an import of another class hides the class at home, and a class that the
file imports under an alias is not imported again.
-/
namespace DocTypes
open Text

namespace Name

/-- Not empty, and without a backslash in front. -/
def isFull : Text → Bool
  | [] => false
  | c :: _ => c != '\\'

lemma isFull_append {s : Text} (h : isFull s) (t : Text) : isFull (s ++ t) := by
  cases s with
  | nil => cases h
  | cons c s => exact h

lemma unrooted_of_isFull {s : Text} (h : isFull s) : unrooted s = s := by
  cases s with
  | nil => cases h
  | cons c s => exact List.dropWhile_cons_of_neg (by simpa [isFull] using h)

lemma isFull_of_isSpelled {s : Text} (h : TypeExpr.isSpelled s) : isFull s := by
  cases s with
  | nil => cases h
  | cons c s =>
    have hc := (TypeExpr.startsName_ne (TypeExpr.isSpelled_cons.mp h).1).2.1
    simpa [isFull] using hc

def firstSegment (w : Text) : Text := w.takeWhile (· != '\\')

/-- What follows the last backslash is the short name. -/
lemma short_of_suffix {segment s : Text} (h : '\\' :: segment <:+ s) (hne : segment ≠ [])
    (hsegment : '\\' ∉ segment) : short s = segment := by
  have hall : ∀ c ∈ segment, (c != '\\') = true := fun c hc => by
    simpa using fun heq : c = '\\' => hsegment (heq ▸ hc)
  have hlast : ∀ a : Text, (a = [] ∨ ∃ b, a = b ++ ['\\']) → afterLast '\\' (a ++ segment) = segment := by
    intro a ha
    have hrev : ∀ c ∈ segment.reverse, (c != '\\') = true := fun c hc =>
      hall c (List.mem_reverse.mp hc)
    rw [afterLast, List.reverse_append, List.takeWhile_append_of_pos hrev]
    rcases ha with rfl | ⟨b, rfl⟩ <;> simp
  obtain ⟨a, rfl⟩ := h
  have hsplit : ∃ a', (a' = [] ∨ ∃ b, a' = b ++ ['\\']) ∧
      unrooted (a ++ '\\' :: segment) = a' ++ segment := by
    have hstart : segment.dropWhile (· == '\\') = segment := by
      cases segment with
      | nil => rfl
      | cons c r => exact List.dropWhile_cons_of_neg (by simpa using hall c List.mem_cons_self)
    rw [unrooted, List.dropWhile_append]
    split
    · refine ⟨[], .inl rfl, ?_⟩
      rw [List.dropWhile_cons_of_pos (by simp), hstart, List.nil_append]
    · exact ⟨a.dropWhile (· == '\\') ++ ['\\'], .inr ⟨_, rfl⟩, by simp⟩
  obtain ⟨a', ha', hunrooted⟩ := hsplit
  unfold short
  rw [hunrooted, hlast a' ha']
  cases segment with
  | nil => exact absurd rfl hne
  | cons c r => rfl

/-- The short name of a namespaced name is not empty. -/
lemma short_ne_nil {w : Text} (hn : isNamespaced w) : short w ≠ [] := by
  have hmem : '\\' ∈ unrooted w := by simpa [isNamespaced] using hn
  unfold short
  split
  · exact List.ne_nil_of_mem hmem
  · rename_i hne
    exact hne

lemma notMem_short {w : Text} (hs : isNamespaced (short w) = false) : '\\' ∉ short w := by
  rw [← unrooted_short]
  simpa [isNamespaced] using hs

/-- Of names that all have different short names only one has a given short name. -/
lemma find?_short {names : List Text} {segment x : Text}
    (hdistinct : names.Pairwise fun y z => eqIgnoreCase (short y) (short z) = false)
    (hx : x ∈ names) (hshort : eqIgnoreCase (short x) segment) :
    names.find? (fun y => eqIgnoreCase (short y) segment) = some x := by
  induction names with
  | nil => exact absurd hx List.not_mem_nil
  | cons y names ih =>
    obtain ⟨hy, hdistinct⟩ := List.pairwise_cons.mp hdistinct
    rcases List.mem_cons.mp hx with rfl | hx
    · exact List.find?_cons_of_pos hshort
    · rw [List.find?_cons_of_neg, ih hdistinct hx]
      rw [← eqIgnoreCase_congr_right hshort, hy x hx]
      exact Bool.false_ne_true

end Name

/-! Scopes of full names. -/

namespace NameScope

/-- The namespace and all imports are full names. -/
def IsFull (s : NameScope) : Prop :=
  (∀ home ∈ s.home, Name.isFull home) ∧ ∀ x ∈ s.imports.values, Name.isFull x

instance : DecidablePred IsFull := fun s =>
  inferInstanceAs (Decidable ((∀ home ∈ s.home, Name.isFull home) ∧
    ∀ x ∈ s.imports.values, Name.isFull x))

variable {s : NameScope} {segment w x : Text}

lemma mem_values_of_importedAs? (h : s.importedAs? segment = some x) : x ∈ s.imports.values := by
  obtain ⟨e, he, rfl⟩ := Option.map_eq_some_iff.mp h
  exact List.mem_map_of_mem (List.mem_of_find?_eq_some he)

lemma isFull_atHome (h : s.IsFull) (hw : Name.isFull w) : Name.isFull (s.atHome w) := by
  rw [atHome]
  cases hhome : s.home with
  | none => exact hw
  | some home => exact Name.isFull_append (h.1 home hhome) _

lemma isFull_resolve (h : s.IsFull) (hw : TypeExpr.isName w) : Name.isFull (s.resolve w) := by
  have hplain : ∀ w, Name.isFull w → Name.isFull (s.resolve w) := by
    intro w hw
    unfold resolve
    split
    · cases hw
    · split
      · rename_i full himport
        exact Name.isFull_append (h.2 full (mem_values_of_importedAs? himport)) _
      · exact isFull_atHome h hw
  rcases TypeExpr.isName_cases hw with rfl | ⟨t, rfl, ht⟩ | hspelled
  · exact hplain _ rfl
  · exact Name.isFull_of_isSpelled ht
  · exact hplain _ (Name.isFull_of_isSpelled hspelled)

/-- What a name stands for in such a scope is full as it is. -/
lemma full_eq_resolve (h : s.IsFull) (hw : TypeExpr.isName w) (hr : Name.isReserved w = false) :
    ((TypeRef.ofWritten w).resolveIn (some s)).full = s.resolve w := by
  rw [full_resolveIn hr, Name.unrooted_of_isFull (isFull_resolve h hw)]

/-- A namespaced name stands for a class of its short name. -/
lemma short_resolve (hn : Name.isNamespaced w) (hs : Name.isNamespaced (Name.short w) = false)
    (s : NameScope) : Name.short (s.resolve w) = Name.short w :=
  Name.short_of_suffix (suffix_resolve hn hs s) (Name.short_ne_nil hn) (Name.notMem_short hs)

end NameScope

/-! What holds a segment at the end. -/

namespace PendingImports

variable {scope : NameScope} {p q : PendingImports} {segment x : Text}

/-- A segment is held by an import of the scope, or by a pending one of this short name. -/
lemma holder?_eq_some_iff (h : p.IsFree scope) : p.holder? scope segment = some x ↔
    scope.importedAs? segment = some x ∨
      x ∈ p.names scope ∧ eqIgnoreCase (Name.short x) segment := by
  constructor
  · intro hx
    rcases of_holder? hx with himport | ⟨-, hpending⟩
    · exact .inl himport
    · exact .inr hpending
  · rintro (himport | ⟨hmem, hshort⟩)
    · rw [holder?, himport, Option.some_or]
    · have hnone : scope.importedAs? segment = none := by
        rw [← NameScope.importedAs?_congr hshort]
        exact h.free x hmem
      rw [holder?, hnone, Option.none_or]
      exact Name.find?_short h.distinct hmem hshort

/-- A segment that nothing holds stands for a class at home. -/
lemma head_of_holder?_eq_none (h : p.holder? scope segment = none) :
    scope.head segment = scope.atHome segment := by
  rw [holder?, Option.or_eq_none_iff] at h
  rw [NameScope.head, h.1]
  rfl

end PendingImports

/-! One name, by what is done to it. -/

namespace NameScope

variable {classExists : Text → Bool} {scope : NameScope} {p : PendingImports} {st : ImportState}
  {w : Text}

/-- A name that is left alone keeps its meaning unless it is neither a reserved word nor rooted, and
what is pending for its first segment is the import of another class than the one at home. -/
theorem keeps_left_iff (hfree : p.IsFree scope) :
    scope.keeps (scope.withPending p) w w ↔ Name.isReserved w ∨ startsWith "\\" w ∨
      ∀ x ∈ p.names scope, eqIgnoreCase (Name.short x) (Name.firstSegment w) →
        eqIgnoreCase (scope.atHome (Name.firstSegment w)) x := by
  have hhead : eqIgnoreCase (scope.head (Name.firstSegment w))
      ((scope.withPending p).head (Name.firstSegment w)) ↔
        ∀ x ∈ p.names scope, eqIgnoreCase (Name.short x) (Name.firstSegment w) →
          eqIgnoreCase (scope.atHome (Name.firstSegment w)) x := by
    rw [head_withPending hfree]
    constructor
    · intro hsame x hx hshort
      have hnone : scope.importedAs? (Name.firstSegment w) = none := by
        rw [← importedAs?_congr hshort]
        exact hfree.free x hx
      have hholder := (PendingImports.holder?_eq_some_iff hfree).mpr (.inr ⟨hx, hshort⟩)
      rwa [head, hnone, hholder] at hsame
    · intro hother
      cases hholder : p.holder? scope (Name.firstSegment w) with
      | none =>
        rw [PendingImports.head_of_holder?_eq_none hholder]
        exact eqIgnoreCase_refl _
      | some x =>
        rcases PendingImports.of_holder? hholder with himport | ⟨hnone, hx, hshort⟩
        · rw [head, himport]
          exact eqIgnoreCase_refl x
        · rw [head, hnone]
          exact hother x hx hshort
  rw [keeps, if_pos rfl, Bool.or_eq_true, Bool.or_eq_true, or_assoc]
  exact or_congr_right (or_congr_right hhead)

section Short

variable (hscope : scope.IsFull) (hw : TypeExpr.isName w) (hn : Name.isNamespaced w)
  (hs : Name.isNamespaced (Name.short w) = false)
include hscope hw hn hs

/-- A short name that the class itself holds is held by it at the end. -/
lemma exists_holder?_of_isShortOwn (hwithin : PendingImports.IsWithin scope st.pending p)
    (own : st.pending.isShortOwn scope (scope.resolve w)) :
    ∃ x, p.holder? scope (Name.short w) = some x ∧ eqIgnoreCase x (scope.resolve w) := by
  rw [PendingImports.isShortOwn, Name.unrooted_of_isFull (isFull_resolve hscope hw),
    PendingImports.occupant?_eq, short_resolve hn hs, Option.any_eq_true] at own
  obtain ⟨x, hx, hsame⟩ := own
  exact ⟨x, PendingImports.holder?_of_isWithin hwithin hx, hsame⟩

/-- A short name for which an import was asked is held by the class at the end, unless the scope imports
the class already. -/
lemma holder?_of_record (free : st.pending.isShortTaken scope (scope.resolve w) = false)
    (hnew : ¬∃ x ∈ scope.imports.values, eqIgnoreCase x (scope.resolve w))
    (hwithin : PendingImports.IsWithin scope (st.record scope (scope.resolve w)).pending p) :
    p.holder? scope (Name.short w) = some (scope.resolve w) := by
  have hunrooted := Name.unrooted_of_isFull (isFull_resolve hscope hw)
  have himported : scope.imports.values.any
      (eqIgnoreCase · (Name.unrooted (scope.resolve w))) = false := by
    rwa [hunrooted, Bool.eq_false_iff, ne_eq, List.any_eq_true]
  rw [PendingImports.isShortTaken, Option.isSome_eq_false_iff, Option.isNone_iff_eq_none,
    PendingImports.occupant?_eq] at free
  have hholder := PendingImports.holder?_of_isWithin hwithin
    (PendingImports.holder?_request free himported)
  rwa [short_resolve hn hs, hunrooted] at hholder

variable (hfree : p.IsFree scope)
include hfree

/-- A short name stands for what holds it, and for a class at home if nothing does. -/
lemma keeps_short_iff :
    scope.keeps (scope.withPending p) w (Name.short w) ↔
      Name.isReserved (Name.short w) = false ∧
        eqIgnoreCase ((TypeRef.ofWritten w).resolveIn (some scope)).full
          ((p.holder? scope (Name.short w)).getD (scope.atHome (Name.short w))) := by
  have hne : Name.short w ≠ w := by
    intro heq
    rw [heq, hn] at hs
    cases hs
  rw [keeps, if_neg hne, Bool.and_eq_true, Bool.not_eq_true',
    full_eq_resolve hscope hw (Name.isReserved_of_isNamespaced hw hn),
    resolve_segment (Name.notMem_short hs) (scope.withPending p), head_withPending hfree]

/-- The short name of the class at home keeps its meaning unless it is a reserved word, or an import of
the scope or a pending one holds it for another class. -/
theorem keeps_sibling_iff
    (same : eqIgnoreCase (scope.atHome (Name.short w))
      ((TypeRef.ofWritten w).resolveIn (some scope)).full) :
    scope.keeps (scope.withPending p) w (Name.short w) ↔
      Name.isReserved (Name.short w) = false ∧
        ∀ x, scope.importedAs? (Name.short w) = some x ∨
            x ∈ p.names scope ∧ eqIgnoreCase (Name.short x) (Name.short w) →
          eqIgnoreCase ((TypeRef.ofWritten w).resolveIn (some scope)).full x := by
  rw [keeps_short_iff hscope hw hn hs hfree]
  refine and_congr_right fun _ => ?_
  simp only [← PendingImports.holder?_eq_some_iff hfree]
  cases p.holder? scope (Name.short w) with
  | none =>
    rw [eqIgnoreCase_comm] at same
    exact ⟨fun _ => nofun, fun _ => same⟩
  | some x => exact ⟨fun h y hy => Option.some.inj hy ▸ h, fun h => h x rfl⟩

/-- The short name that the class itself holds keeps its meaning unless it is a reserved word. -/
theorem keeps_own_iff
    (hwithin : PendingImports.IsWithin scope st.pending p)
    (own : st.pending.isShortOwn scope ((TypeRef.ofWritten w).resolveIn (some scope)).full) :
    scope.keeps (scope.withPending p) w (Name.short w) ↔
      Name.isReserved (Name.short w) = false := by
  have hr := Name.isReserved_of_isNamespaced hw hn
  rw [full_eq_resolve hscope hw hr] at own
  obtain ⟨x, hx, hsame⟩ := exists_holder?_of_isShortOwn hscope hw hn hs hwithin own
  rw [keeps_short_iff hscope hw hn hs hfree, full_eq_resolve hscope hw hr, hx, Option.getD_some,
    and_iff_left_iff_imp]
  intro _
  rwa [eqIgnoreCase_comm]

/-- A short name for which an import was asked keeps its meaning unless it is a reserved word, or the
scope imports the class under another name. Then nothing is added, and the short name stands for what
comes to hold it later, or for a class at home. -/
theorem keeps_request_iff
    (free : st.pending.isShortTaken scope
      ((TypeRef.ofWritten w).resolveIn (some scope)).full = false)
    (hwithin : PendingImports.IsWithin scope
      (st.record scope ((TypeRef.ofWritten w).resolveIn (some scope)).full).pending p) :
    scope.keeps (scope.withPending p) w (Name.short w) ↔
      Name.isReserved (Name.short w) = false ∧
        ((∃ x ∈ scope.imports.values,
            eqIgnoreCase x ((TypeRef.ofWritten w).resolveIn (some scope)).full) →
          eqIgnoreCase ((TypeRef.ofWritten w).resolveIn (some scope)).full
            ((p.holder? scope (Name.short w)).getD (scope.atHome (Name.short w)))) := by
  rw [keeps_short_iff hscope hw hn hs hfree]
  rw [full_eq_resolve hscope hw (Name.isReserved_of_isNamespaced hw hn)] at free hwithin ⊢
  refine and_congr_right fun _ => ⟨fun h _ => h, fun h => ?_⟩
  by_cases himported : ∃ x ∈ scope.imports.values, eqIgnoreCase x (scope.resolve w)
  · exact h himported
  · rw [holder?_of_record hscope hw hn hs free himported hwithin]
    exact eqIgnoreCase_refl _

end Short
end NameScope
end DocTypes
