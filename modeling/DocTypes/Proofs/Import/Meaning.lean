import DocTypes.Proofs.Import.Rereading

/-!
Whether a comment means the same after its names were shortened. Every type has to be read again,
and every name has to stand in the scope with the pending imports for what it stood for before.
-/
namespace DocTypes
open Text

section
variable {α ι β γ : Type} {R : β → γ → Prop}

lemma forall₂_map_iff {f : ι → β} {g : ι → γ} {is : List ι} :
    List.Forall₂ R (is.map f) (is.map g) ↔ ∀ i ∈ is, R (f i) (g i) := by
  rw [List.forall₂_map_left_iff, List.forall₂_map_right_iff, List.forall₂_same]

/-- Groups that are missing and not empty make a list shorter. -/
lemma length_flatMap_present {xs : List α} {items : α → List ι} {present : α → Bool} (f : ι → β)
    (g : ι → γ) (hne : ∀ x ∈ xs, present x = false → items x ≠ []) :
    let all := (xs.flatMap fun x => (items x).map f).length
    let some := (xs.flatMap fun x => if present x then (items x).map g else []).length
    some ≤ all ∧ (all = some → ∀ x ∈ xs, present x) := by
  induction xs with
  | nil => simp
  | cons x xs ih =>
    obtain ⟨hle, heq⟩ := ih fun y hy => hne y (by simp [hy])
    dsimp only at *
    rw [List.flatMap_cons, List.flatMap_cons, List.length_append, List.length_append,
      List.length_map]
    cases hx : present x with
    | true =>
      rw [if_pos rfl, List.length_map]
      refine ⟨by omega, fun h => ?_⟩
      rw [List.forall_mem_cons]
      exact ⟨hx, heq (by omega)⟩
    | false =>
      have hpos := List.length_pos_iff.mpr (hne x (by simp) hx)
      rw [if_neg (by decide), List.length_nil]
      exact ⟨by omega, fun h => by omega⟩

/-- Two lists made of groups, where some groups of the second may be missing. -/
lemma forall₂_flatMap_iff {xs : List α} (items : α → List ι) (present : α → Bool) (f : ι → β)
    (g : ι → γ) (hne : ∀ x ∈ xs, present x = false → items x ≠ []) :
    List.Forall₂ R (xs.flatMap fun x => (items x).map f)
        (xs.flatMap fun x => if present x then (items x).map g else []) ↔
      (∀ x ∈ xs, present x) ∧ ∀ i ∈ xs.flatMap items, R (f i) (g i) := by
  by_cases hall : ∀ x ∈ xs, present x
  · have hsome : (xs.flatMap fun x => if present x then (items x).map g else []) =
        xs.flatMap fun x => (items x).map g :=
      List.flatMap_congr fun x hx => if_pos (hall x hx)
    rw [hsome, ← List.map_flatMap, ← List.map_flatMap, forall₂_map_iff]
    exact (and_iff_right hall).symm
  · exact ⟨fun h => absurd ((length_flatMap_present f g hne).2 h.length_eq) hall,
      fun h => absurd h.1 hall⟩

end

namespace DocSlot

/-- What the names in the types of all tags stand for, in their order. -/
def effectiveNames (s : DocSlot) : List Text :=
  match s.comment? with
  | some c => c.tree.names.map (·.effective)
  | none => []

end DocSlot

/-- Each name of the entry stands for the same class exactly if it keeps its meaning. -/
lemma Renaming.keeps_of_isShortening {r : Renaming} {scope : NameScope} (h : r.IsShortening scope)
    (later : NameScope) : ∀ p ∈ r.content.names,
    eqIgnoreCase p.1.effective
        ((TypeRef.ofWritten p.2.written).resolveIn (some later)).effective =
      scope.keeps later p.1.written p.2.written := by
  intro p hp
  have hlooked := h.looked p hp
  have hkeeps := NameScope.keeps_shorten (isWord_of_isShortening h p hp).1 scope later
    (r := p.2) (by rw [← hlooked]; exact h.short p hp)
  rwa [← hlooked] at hkeeps

namespace DocSlot

/-- Shortened names stand for the same classes as before, in their order, exactly if the types that
were changed can be read again and each name keeps its meaning. -/
theorem effectiveNames_importNames_iff (classExists : Text → Bool) (scope : NameScope)
    (st : ImportState) {text : Text} (hs : startsWith "/**" text)
    (hd : DocTree.isDocComment (trim text)) :
    let tree := (DocTree.read text).resolveIn (some scope)
    let short := (tree.shorten classExists scope st).1
    let result := importNames classExists ⟨some text, some scope⟩ st
    let later := scope.withPending result.2.pending
    List.Forall₂ (fun old new => eqIgnoreCase old new)
        (effectiveNames ⟨some text, some scope⟩)
        (effectiveNames { result.1.1 with scope := some later }) ↔
      (∀ e ∈ short.entries, e.isUntouched = false → e.written.isReadable) ∧
        List.Forall₂ (fun old new => scope.keeps later old.written new.written)
          tree.names short.names := by
  intro tree short result later
  obtain ⟨rs, hbefore, hafter, horigin, hrs⟩ :=
    DocTree.exists_isShortening hd classExists scope st
  obtain ⟨hne, hread⟩ := DocTree.written_read_print_shorten hs hd scope hafter horigin hrs
  have hresult : result.1.1 = ⟨some (short.print text), some scope⟩ :=
    congrArg Prod.fst (writeBack_of_ne_nil (c := ⟨short, text, some scope⟩) rfl hne)
  have hentries : short.entries = rs.map Renaming.after := congrArg DocTree.entries hafter
  have hbeforeNames := DocTree.names_of_entries Prod.fst hbefore
  have hafterNames := DocTree.names_of_entries Prod.snd hentries
  have hold : effectiveNames ⟨some text, some scope⟩ =
      rs.flatMap fun r => r.content.names.map (·.1.effective) := by
    change tree.names.map (·.effective) = _
    rw [hbeforeNames, List.map_map, List.map_flatMap]
    rfl
  have hnew : effectiveNames { result.1.1 with scope := some later } =
      rs.flatMap fun r => if r.after.isUntouched || r.after.written.isReadable then
        r.content.names.map fun p =>
          ((TypeRef.ofWritten p.2.written).resolveIn (some later)).effective else [] := by
    rw [hresult]
    change ((DocTree.read (short.print text)).resolveIn (some later)).names.map (·.effective) = _
    rw [DocTree.names_resolveIn_read, hread, List.flatMap_map, List.map_flatMap]
    refine List.flatMap_congr fun r hr => ?_
    rw [List.map_map, (hrs r hr).1.isRewording.names_reread.2.1]
    split
    · rw [List.map_map]
      rfl
    · rfl
  have hreadable : (∀ e ∈ short.entries, e.isUntouched = false → e.written.isReadable) ↔
      ∀ r ∈ rs, r.after.isUntouched || r.after.written.isReadable := by
    rw [hentries, List.forall_mem_map]
    refine forall₂_congr fun r _ => ?_
    cases r.after.isUntouched <;> simp
  have hkeeps : ∀ p ∈ rs.flatMap (·.content.names),
      eqIgnoreCase p.1.effective
          ((TypeRef.ofWritten p.2.written).resolveIn (some later)).effective =
        scope.keeps later p.1.written p.2.written := by
    intro p hp
    obtain ⟨r, hr, hp⟩ := List.mem_flatMap.mp hp
    exact Renaming.keeps_of_isShortening (hrs r hr).1 later p hp
  rw [hold, hnew, forall₂_flatMap_iff _ _ _ _ fun r hr => (hrs r hr).1.isRewording.names_reread.2.2,
    hbeforeNames, hafterNames, forall₂_map_iff, hreadable]
  exact and_congr_right fun _ => forall₂_congr fun p hp => by rw [hkeeps p hp]

/-- A class of the namespace and one that is imported for its short name. -/
theorem effectiveNames_importNames_home_and_import :
    let scope := (NameScope.inNamespace (some "App")).withFile "a.php"
    let text : Text := "/** @param \\V\\T[]|null $t All.\n * @return \\App\\U */"
    let result := importNames (· == "App\\U".toList) ⟨some text, some scope⟩ ∅
    result.1.1.text = some "/**\n * @param T[]|null $t All.\n * @return U\n */".toList ∧
      List.Forall₂ (fun old new => eqIgnoreCase old new)
        (effectiveNames ⟨some text, some scope⟩)
        (effectiveNames { result.1.1 with scope := some (scope.withPending result.2.pending) }) := by
  constructor
  · decide +kernel
  · refine (effectiveNames_importNames_iff (· == "App\\U".toList)
      ((NameScope.inNamespace (some "App")).withFile "a.php") ∅ ?_ ?_).mpr ⟨?_, ?_⟩
    · decide
    · decide +kernel
    · decide +kernel
    · decide +kernel

/-- A class that the file imports under an alias is not imported again, and yet its short name is
written. -/
theorem effectiveNames_importNames_aliased :
    let scope := (NameScope.inNamespace (some "App")).importAs "A\\B" "C"
    let result := importNames (fun _ => false) ⟨some "/** @var \\A\\B */", some scope⟩ ∅
    ¬ List.Forall₂ (fun old new => eqIgnoreCase old new)
        (effectiveNames ⟨some "/** @var \\A\\B */", some scope⟩)
        (effectiveNames { result.1.1 with scope := some (scope.withPending result.2.pending) }) := by
  decide +kernel

end DocSlot
end DocTypes
