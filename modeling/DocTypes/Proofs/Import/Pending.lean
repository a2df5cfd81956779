import DocTypes.Proofs.Import.Names

/-!
Imports that are asked for one after the other. Each takes a short name that was free, so the scope
that has all of them finds under a short name what held it when it was asked for.
-/
namespace DocTypes
open Text

/-! Names that differ in letter case only. -/

namespace Text

lemma dropWhile_lower (s : Text) :
    (lower s).dropWhile (· == '\\') = lower (s.dropWhile (· == '\\')) := by
  have hmark : ((· == '\\') ∘ Char.toLower) = (· == '\\') := funext fun c => by
    have := toLower_eq_iff (b := '\\') (by decide) c
    simp [this]
  rw [lower, List.dropWhile_map, hmark]
  rfl

lemma afterLast_lower (s : Text) : afterLast '\\' (lower s) = lower (afterLast '\\' s) := by
  have hmark : ((· != '\\') ∘ Char.toLower) = (· != '\\') := funext fun c => by
    have := toLower_eq_iff (b := '\\') (by decide) c
    simp [bne, this]
  rw [afterLast, afterLast, lower, ← List.map_reverse, List.takeWhile_map, hmark, lower,
    List.map_reverse]

lemma eqIgnoreCase_refl (s : Text) : eqIgnoreCase s s = true := eqIgnoreCase_iff.mpr rfl

lemma eqIgnoreCase_comm (s t : Text) : eqIgnoreCase s t = eqIgnoreCase t s := by
  rw [Bool.eq_iff_iff, eqIgnoreCase_iff, eqIgnoreCase_iff, eq_comm]

lemma eqIgnoreCase_congr_right {s t : Text} (h : eqIgnoreCase s t) (r : Text) :
    eqIgnoreCase r s = eqIgnoreCase r t := by
  rw [Bool.eq_iff_iff, eqIgnoreCase_iff, eqIgnoreCase_iff, eqIgnoreCase_iff.mp h]

end Text

namespace Name

lemma unrooted_lower (s : Text) : unrooted (lower s) = lower (unrooted s) := dropWhile_lower s

lemma short_lower (s : Text) : short (lower s) = lower (short s) := by
  rw [short, short, unrooted_lower, afterLast_lower]
  cases afterLast '\\' (unrooted s) <;> rfl

lemma eqIgnoreCase_unrooted {s t : Text} (h : eqIgnoreCase s t) :
    eqIgnoreCase (unrooted s) (unrooted t) := by
  rw [eqIgnoreCase_iff] at h ⊢
  rw [← unrooted_lower, h, unrooted_lower]

lemma eqIgnoreCase_short {s t : Text} (h : eqIgnoreCase s t) :
    eqIgnoreCase (short s) (short t) := by
  rw [eqIgnoreCase_iff] at h ⊢
  rw [← short_lower, h, short_lower]

@[simp] lemma short_unrooted (s : Text) : short (unrooted s) = short s := by
  rw [short, short, unrooted_unrooted]

end Name

namespace NameScope

lemma importedAs?_congr {m n : Text} (h : eqIgnoreCase m n) (s : NameScope) :
    s.importedAs? m = s.importedAs? n := by
  rw [importedAs?, importedAs?]
  have : (fun e : Text × Text => eqIgnoreCase e.1 m) = fun e => eqIgnoreCase e.1 n :=
    funext fun e => eqIgnoreCase_congr_right h e.1
  rw [this]

end NameScope

namespace OrderedMap

variable {κ ν : Type} [DecidableEq κ]

/-- A new key goes to the end. -/
lemma entries_insert_of_notMem {m : OrderedMap κ ν} {k : κ} (h : k ∉ m.keys) (v : ν) :
    (m.insert k v).entries = m.entries ++ [(k, v)] := by
  have key : ∀ es : List (κ × ν), k ∉ es.map (·.1) → putEntry k v es = es ++ [(k, v)] := by
    intro es
    induction es with
    | nil => exact fun _ => rfl
    | cons e es ih =>
      intro h
      rw [List.map_cons, List.mem_cons, not_or] at h
      rw [putEntry, if_neg (Ne.symm h.1), ih h.2, List.cons_append]
  exact key m.entries h

end OrderedMap

namespace PendingImports

/-- The names pending for the file of a scope. -/
def names (p : PendingImports) (scope : NameScope) : List Text := (p.ofFile scope.fileKey).toList

/-- All that is pending in the file of the scope is a full name, and has a short name of its own,
which the scope does not use. -/
structure IsFree (p : PendingImports) (scope : NameScope) : Prop where
  unrooted : ∀ x ∈ p.names scope, Name.unrooted x = x
  free : ∀ x ∈ p.names scope, scope.importedAs? (Name.short x) = none
  distinct : (p.names scope).Pairwise fun x y => eqIgnoreCase (Name.short x) (Name.short y) = false

/-- Nothing that was pending in the file is missing later. -/
def IsWithin (scope : NameScope) (p q : PendingImports) : Prop := p.names scope <+: q.names scope

variable {scope : NameScope} {p q : PendingImports} {name : Text}

lemma isFree_empty (scope : NameScope) : (∅ : PendingImports).IsFree scope :=
  ⟨nofun, nofun, .nil⟩

lemma isWithin_refl (scope : NameScope) (p : PendingImports) : IsWithin scope p p :=
  List.prefix_rfl

lemma IsWithin.trans {r : PendingImports} (h : IsWithin scope p q) (h' : IsWithin scope q r) :
    IsWithin scope p r := List.IsPrefix.trans h h'

/-! What holds a short name. -/

/-- The full name that a segment stands for by an import: one of the scope first, then a pending
one. -/
def holder? (p : PendingImports) (scope : NameScope) (segment : Text) : Option Text :=
  (scope.importedAs? segment).or
    ((p.names scope).find? fun x => eqIgnoreCase (Name.short x) segment)

lemma occupant?_eq (p : PendingImports) (scope : NameScope) (name : Text) :
    p.occupant? scope name = p.holder? scope (Name.short name) := by
  rw [occupant?, holder?]
  cases scope.importedAs? (Name.short name) <;> rfl

lemma holder?_congr {m n : Text} (h : eqIgnoreCase m n) (p : PendingImports)
    (scope : NameScope) : p.holder? scope m = p.holder? scope n := by
  have : (fun x => eqIgnoreCase (Name.short x) m) = fun x => eqIgnoreCase (Name.short x) n :=
    funext fun x => eqIgnoreCase_congr_right h (Name.short x)
  rw [holder?, holder?, NameScope.importedAs?_congr h, this]

lemma occupant?_congr {m n : Text} (h : eqIgnoreCase m n) (p : PendingImports)
    (scope : NameScope) : p.occupant? scope m = p.occupant? scope n := by
  rw [occupant?_eq, occupant?_eq, holder?_congr (Name.eqIgnoreCase_short h)]

/-- What holds a segment goes on to hold it. -/
lemma holder?_of_isWithin (h : IsWithin scope p q) {segment x : Text}
    (hx : p.holder? scope segment = some x) : q.holder? scope segment = some x := by
  obtain ⟨later, hlater⟩ := h
  unfold holder? at hx ⊢
  cases hs : scope.importedAs? segment with
  | some full => rwa [hs] at hx
  | none =>
    rw [hs, Option.none_or] at hx
    rw [← hlater, List.find?_append, hx]
    rfl

/-- Only an import of the scope that has the alias, or a pending import of this short name, can hold
a segment. -/
lemma of_holder? {segment x : Text} (h : p.holder? scope segment = some x) :
    scope.importedAs? segment = some x ∨
      scope.importedAs? segment = none ∧ x ∈ p.names scope ∧
        eqIgnoreCase (Name.short x) segment := by
  unfold holder? at h
  cases hs : scope.importedAs? segment with
  | some full =>
    rw [hs, Option.some_or] at h
    exact .inl h
  | none =>
    rw [hs, Option.none_or] at h
    have hshort := List.find?_some h
    exact .inr ⟨rfl, List.mem_of_find?_eq_some h, hshort⟩

/-- A short name that is free is no alias of the scope. -/
lemma importedAs?_of_free (h : p.isShortTaken scope name = false) :
    scope.importedAs? (Name.short name) = none := by
  rw [isShortTaken, Option.isSome_eq_false_iff, Option.isNone_iff_eq_none, occupant?_eq, holder?,
    Option.or_eq_none_iff] at h
  exact h.1

/-! One request. -/

/-- A name that the scope does not import goes to the end, unless it is pending. -/
lemma names_request_of_new
    (h : scope.imports.values.any (eqIgnoreCase · (Name.unrooted name)) = false) :
    (p.request scope name).names scope =
      if Name.unrooted name ∈ p.names scope then p.names scope
      else p.names scope ++ [Name.unrooted name] := by
  have hfile : (PendingImports.mk (p.byFile.insert scope.fileKey
      ((p.ofFile scope.fileKey).insert (Name.unrooted name)))).ofFile scope.fileKey =
      (p.ofFile scope.fileKey).insert (Name.unrooted name) := by
    simp [ofFile]
  rw [request, h, if_neg Bool.false_ne_true, names, hfile, OrderedSet.toList_insert]
  congr

lemma names_request (p : PendingImports) (scope : NameScope) (name : Text) :
    (p.request scope name).names scope = p.names scope ∨
      (p.request scope name).names scope = p.names scope ++ [Name.unrooted name] := by
  cases h : scope.imports.values.any (eqIgnoreCase · (Name.unrooted name)) with
  | true =>
    rw [request, h, if_pos rfl]
    exact .inl rfl
  | false =>
    rw [names_request_of_new h]
    split
    · exact .inl rfl
    · exact .inr rfl

lemma isWithin_request (p : PendingImports) (scope : NameScope) (name : Text) :
    IsWithin scope p (p.request scope name) := by
  unfold IsWithin
  rcases names_request p scope name with heq | heq
  · exact heq ▸ List.prefix_rfl
  · exact heq ▸ List.prefix_append _ _

/-- A name that was asked for holds its short name, if that was free and the scope does not import the
name under another. -/
lemma holder?_request (hfree : p.holder? scope (Name.short name) = none)
    (h : scope.imports.values.any (eqIgnoreCase · (Name.unrooted name)) = false) :
    (p.request scope name).holder? scope (Name.short name) = some (Name.unrooted name) := by
  rw [holder?, Option.or_eq_none_iff, List.find?_eq_none] at hfree
  obtain ⟨hnone, hother⟩ := hfree
  have hnew : Name.unrooted name ∉ p.names scope := by
    intro hmem
    apply hother _ hmem
    rw [Name.short_unrooted]
    exact eqIgnoreCase_refl _
  have hfind : (p.names scope).find? (fun x => eqIgnoreCase (Name.short x) (Name.short name)) =
      none := List.find?_eq_none.mpr hother
  rw [holder?, hnone, Option.none_or, names_request_of_new h, if_neg hnew, List.find?_append,
    hfind, Option.none_or]
  simp [eqIgnoreCase_refl]

lemma ofFile_request_of_ne {key : Text} (h : key ≠ scope.fileKey) (p : PendingImports)
    (name : Text) : (p.request scope name).ofFile key = p.ofFile key := by
  rw [request]
  split
  · rfl
  · simp [ofFile, h]

/-- A free short name is none of the short names that are pending. -/
lemma pairwise_request (h : (p.names scope).Pairwise fun x y =>
      eqIgnoreCase (Name.short x) (Name.short y) = false)
    (hfree : p.isShortTaken scope name = false) :
    ((p.request scope name).names scope).Pairwise fun x y =>
      eqIgnoreCase (Name.short x) (Name.short y) = false := by
  rw [isShortTaken, Option.isSome_eq_false_iff, Option.isNone_iff_eq_none, occupant?_eq, holder?,
    Option.or_eq_none_iff, List.find?_eq_none] at hfree
  rcases names_request p scope name with heq | heq
  · rwa [heq]
  · rw [heq, List.pairwise_append]
    refine ⟨h, List.pairwise_singleton _ _, fun x hx y hy => ?_⟩
    obtain rfl := List.mem_singleton.mp hy
    rw [Name.short_unrooted]
    simpa using hfree.2 x hx

/-- A request for a name whose short name is free. -/
lemma isFree_request (h : p.IsFree scope) (hfree : p.isShortTaken scope name = false) :
    (p.request scope name).IsFree scope := by
  have hdistinct := pairwise_request h.distinct hfree
  rcases names_request p scope name with heq | heq
  · refine ⟨?_, ?_, hdistinct⟩
    · rw [heq]
      exact h.unrooted
    · rw [heq]
      exact h.free
  · refine ⟨?_, ?_, hdistinct⟩
    · rw [heq, List.forall_mem_append, List.forall_mem_singleton]
      exact ⟨h.unrooted, Name.unrooted_unrooted name⟩
    · rw [heq, List.forall_mem_append, List.forall_mem_singleton, Name.short_unrooted]
      exact ⟨h.free, importedAs?_of_free hfree⟩

end PendingImports

/-! The scope that has all imports. -/

namespace NameScope

variable {scope : NameScope} {p q : PendingImports}

lemma entries_foldl_importShort (names : List Text) {s : NameScope}
    (hfree : ∀ x ∈ names, s.importedAs? (Name.short x) = none)
    (hdistinct : names.Pairwise fun x y => eqIgnoreCase (Name.short x) (Name.short y) = false) :
    (names.foldl (fun s name => s.importShort name) s).imports.entries =
      s.imports.entries ++ names.map fun x => (Name.short x, Name.unrooted x) := by
  induction names generalizing s with
  | nil => simp
  | cons x names ih =>
    rw [List.pairwise_cons] at hdistinct
    obtain ⟨hx, hdistinct⟩ := hdistinct
    have hnone : ∀ {s : NameScope} {n : Text}, s.importedAs? n = none ↔
        ∀ e ∈ s.imports.entries, eqIgnoreCase e.1 n = false := by
      intro s n
      simp [importedAs?]
    have hkey : Name.short x ∉ s.imports.keys := by
      intro h
      obtain ⟨e, he, hkey⟩ := List.mem_map.mp h
      have := hnone.mp (hfree x (by simp)) e he
      rw [hkey, eqIgnoreCase_refl] at this
      cases this
    have hentries : (s.importShort x).imports.entries =
        s.imports.entries ++ [(Name.short x, Name.unrooted x)] :=
      OrderedMap.entries_insert_of_notMem hkey _
    rw [List.foldl_cons, ih (fun y hy => ?_) hdistinct, hentries, List.append_assoc]
    · rfl
    · rw [hnone, hentries, List.forall_mem_append, List.forall_mem_singleton]
      exact ⟨hnone.mp (hfree y (by simp [hy])), hx y hy⟩

lemma home_withPending (p : PendingImports) (scope : NameScope) :
    (scope.withPending p).home = scope.home ∧
      (scope.withPending p).fileKey = scope.fileKey := by
  have key : ∀ (names : List Text) (s : NameScope),
      (names.foldl (fun s name => s.importShort name) s).home = s.home ∧
        (names.foldl (fun s name => s.importShort name) s).fileKey = s.fileKey := by
    intro names
    induction names with
    | nil => exact fun s => ⟨rfl, rfl⟩
    | cons x names ih => exact fun s => ih (s.importShort x)
  exact key _ scope

lemma atHome_withPending (p : PendingImports) (scope : NameScope) :
    (scope.withPending p).atHome = scope.atHome := by
  funext name
  rw [atHome, atHome, (home_withPending p scope).1]

/-- For a segment the scope finds what the pending imports have it held by. -/
lemma importedAs?_withPending (h : p.IsFree scope) (segment : Text) :
    (scope.withPending p).importedAs? segment = p.holder? scope segment := by
  have hentries := entries_foldl_importShort (p.names scope) h.free h.distinct
  rw [importedAs?, show scope.withPending p = (p.names scope).foldl (fun s name => s.importShort name)
    scope from rfl, hentries, List.find?_append, List.find?_map, PendingImports.holder?,
    importedAs?]
  cases scope.imports.entries.find? fun e => eqIgnoreCase e.1 segment with
  | some e => rfl
  | none =>
    have hcomp : ((fun e : Text × Text => eqIgnoreCase e.1 segment) ∘
        fun x => (Name.short x, Name.unrooted x)) =
        fun x => eqIgnoreCase (Name.short x) segment := rfl
    rw [hcomp, Option.none_or, Option.map_none, Option.none_or, Option.map_map]
    cases hx : (p.names scope).find? fun x => eqIgnoreCase (Name.short x) segment with
    | none => rfl
    | some x => exact congrArg some (h.unrooted x (List.mem_of_find?_eq_some hx))

/-- What a segment stands for once the pending imports are in the scope. -/
lemma head_withPending (h : p.IsFree scope) (segment : Text) :
    (scope.withPending p).head segment = (p.holder? scope segment).getD (scope.atHome segment) := by
  rw [head, importedAs?_withPending h, atHome_withPending]

/-- Once the imports are in the scope, it does not matter whether they are pending still. -/
lemma occupant?_withPending (h : p.IsFree scope) (hq : q = p ∨ q = ∅) (name : Text) :
    q.occupant? (scope.withPending p) name = p.occupant? scope name := by
  rw [PendingImports.occupant?_eq, PendingImports.occupant?_eq, PendingImports.holder?,
    importedAs?_withPending h]
  cases ho : p.holder? scope (Name.short name) with
  | some x => rfl
  | none =>
    rw [Option.none_or, List.find?_eq_none]
    intro x hx
    rw [PendingImports.names, (home_withPending p scope).2] at hx
    rcases hq with rfl | rfl
    · rw [PendingImports.holder?, Option.or_eq_none_iff, List.find?_eq_none] at ho
      exact ho.2 x hx
    · cases hx

end NameScope

/-! Shortening a name, and shortening it once more. -/

namespace TypeRef

variable {classExists : Text → Bool} {scope : NameScope} {st : ImportState} {r : TypeRef}

/-- One name asks for no import but one whose short name is free. -/
lemma isFree_shorten (h : st.pending.IsFree scope) (classExists : Text → Bool) (r : TypeRef) :
    (r.shorten classExists scope st).2.pending.IsFree scope := by
  rw [snd_shorten]
  cases hr : r.request? classExists scope st with
  | none => exact h
  | some name => exact PendingImports.isFree_request h (of_request? hr)

lemma isWithin_shorten (classExists : Text → Bool) (scope : NameScope) (st : ImportState)
    (r : TypeRef) :
    PendingImports.IsWithin scope st.pending (r.shorten classExists scope st).2.pending := by
  rw [snd_shorten]
  cases r.request? classExists scope st with
  | none => exact PendingImports.isWithin_refl scope st.pending
  | some name => exact PendingImports.isWithin_request st.pending scope name

/-- Whether shortening the name asks for an import unless its short name is taken. -/
def mayAsk (classExists : Text → Bool) (scope : NameScope) (r : TypeRef) : Bool :=
  Name.isNamespaced r.written && !classExists (scope.atHome (Name.short r.written))

/-- The imports that shortening these names may ask for, whatever is pending. -/
def importsFor (classExists : Text → Bool) (scope : NameScope) (names : List TypeRef) : List Text :=
  (names.filter (mayAsk classExists scope)).map (·.full)

lemma importsFor_subset {names names' : List TypeRef} (h : names ⊆ names') :
    importsFor classExists scope names ⊆ importsFor classExists scope names' :=
  List.map_subset _ (List.filter_subset _ h)

lemma names_shorten_subset (classExists : Text → Bool) (scope : NameScope) (st : ImportState)
    (r : TypeRef) : (r.shorten classExists scope st).2.pending.names scope ⊆
      st.pending.names scope ++ importsFor classExists scope [r] := by
  rw [snd_shorten, request?]
  split
  · rename_i h
    have hmay : mayAsk classExists scope r = true := (Bool.and_eq_true_iff.mp h).1
    have himports : importsFor classExists scope [r] = [r.full] := by
      rw [importsFor, List.filter_cons_of_pos hmay]
      rfl
    have hunrooted : Name.unrooted r.full = r.full := Name.unrooted_unrooted _
    rw [himports]
    change (st.pending.request scope r.full).names scope ⊆ _
    rcases PendingImports.names_request st.pending scope r.full with heq | heq
    · rw [heq]
      exact List.subset_append_left _ _
    · rw [heq, hunrooted]
      exact List.Subset.refl _
  · exact List.subset_append_left _ _

/-- A name that stays as it is stays so in the scope that has all imports. -/
lemma IsLeft.again {p q : PendingImports} (h : r.IsLeft classExists scope st)
    (hfree : p.IsFree scope) (hq : q = p ∨ q = ∅)
    (hwithin : PendingImports.IsWithin scope st.pending p) {r' : TypeRef}
    (hwritten : r'.written = r.written) (hfull : eqIgnoreCase r.full r'.full)
    (recorded : List Text) : r'.IsLeft classExists (scope.withPending p) ⟨q, recorded⟩ := by
  cases h with
  | segment alone => exact .segment (hwritten ▸ alone)
  | sibling found other =>
    rw [eqIgnoreCase_congr_right hfull] at other
    refine .sibling ?_ ?_ <;> rwa [NameScope.atHome_withPending, hwritten]
  | taken missing held other =>
    -- What holds the short name now holds it in the scope, and is the other class still.
    obtain ⟨x, hx⟩ := Option.isSome_iff_exists.mp held
    have hlater : ∀ n, eqIgnoreCase r.full n → q.occupant? (scope.withPending p) n = some x := by
      intro n hn
      rw [NameScope.occupant?_withPending hfree hq, ← PendingImports.occupant?_congr hn,
        PendingImports.occupant?_eq]
      rw [PendingImports.occupant?_eq] at hx
      exact PendingImports.holder?_of_isWithin hwithin hx
    have hself : ∀ r : TypeRef, Name.unrooted r.full = r.full := fun r => Name.unrooted_unrooted _
    refine .taken (by rwa [NameScope.atHome_withPending, hwritten]) ?_ ?_
    · rw [PendingImports.isShortTaken, hlater _ hfull]
      rfl
    · rw [PendingImports.isShortOwn, hself, hx, Option.any_some] at other
      rwa [PendingImports.isShortOwn, hself, hlater _ hfull, Option.any_some,
        ← eqIgnoreCase_congr_right hfull]

/-- What was done to the name is not done again in the scope that has all imports, if the name stands
for the same class there. -/
lemma shorten_again {p q : PendingImports} (hfree : p.IsFree scope) (hq : q = p ∨ q = ∅)
    (hwithin : PendingImports.IsWithin scope (r.shorten classExists scope st).2.pending p)
    {r' : TypeRef} (hshort : Name.isNamespaced (Name.short r.written) = false)
    (hwritten : r'.written = (r.shorten classExists scope st).1.written)
    (hfull : eqIgnoreCase r.full r'.full) (recorded : List Text) :
    r'.shorten classExists (scope.withPending p) ⟨q, recorded⟩ = (r', ⟨q, recorded⟩) := by
  refine shorten_of_isLeft ?_
  obtain ⟨hleft, hsame⟩ | ⟨-, -, hwas⟩ := shorten_cases classExists scope r st
  · rw [hsame] at hwritten hwithin
    exact hleft.again hfree hq hwithin hwritten hfull recorded
  · rw [hwas] at hwritten
    exact .segment (hwritten ▸ hshort)

end TypeRef
end DocTypes
