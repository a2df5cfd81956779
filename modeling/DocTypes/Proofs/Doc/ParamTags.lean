import DocTypes.Proofs.Doc.Removal

/-!
Removing the tags of a parameter. A tag is taken away when its variable is spelled with the `$` alone,
or when it has no readable type and begins with the variable. By reference, variadic or behind a type that
cannot be read, the parameter keeps its tag.
-/
namespace DocTypes
open Text

namespace OrderedMap

variable {κ ν : Type} [DecidableEq κ]

/-- The keys are those that were given a value. -/
lemma mem_keys_ofList {es : List (κ × ν)} {k : κ} : k ∈ (ofList es).keys ↔ k ∈ es.map (·.1) := by
  have key : ∀ (es : List (κ × ν)) (m : OrderedMap κ ν),
      k ∈ (es.foldl (fun m e => m.insert e.1 e.2) m).keys ↔ k ∈ m.keys ∨ k ∈ es.map (·.1) := by
    intro es
    induction es with
    | nil => simp
    | cons e es ih =>
      intro m
      rw [List.foldl_cons, ih, mem_keys_insert, List.map_cons, List.mem_cons, or_assoc]
  exact (key es ∅).trans (or_iff_right nofun)

end OrderedMap

/-- The first word that is a variable. -/
def firstVariable? (s : Text) : Option Text := (s.splitOnP isBlank).find? (startsWith "$")

/-- The tag is about the parameter: its variable is, whatever marks stand in front, or the first
variable behind what cannot be read as a type. -/
def Tag.IsOfParam (p : Text) (t : Tag TypeRef) : Prop :=
  t.name = "@param" ∧ match t.value with
    | .typed v => v.variableName.map DocSlot.bareVariable = some p
    | .malformed raw => firstVariable? raw = some ('$' :: p)
    | .plain _ => False

instance (p : Text) : DecidablePred (Tag.IsOfParam p)
  | ⟨name, .typed v⟩ => inferInstanceAs (Decidable (name = "@param".toList ∧
      v.variableName.map DocSlot.bareVariable = some p))
  | ⟨name, .malformed raw⟩ => inferInstanceAs (Decidable (name = "@param".toList ∧
      firstVariable? raw = some ('$' :: p)))
  | ⟨name, .plain _⟩ => inferInstanceAs (Decidable (name = "@param".toList ∧ False))

namespace DocSlot

variable {s : DocSlot} {p : Text}

/-- A variable at the beginning is the first one. -/
lemma firstVariable?_of_firstWord {raw : Text} (h : firstWord raw = '$' :: p) :
    firstVariable? raw = some ('$' :: p) := by
  induction raw with
  | nil => cases h
  | cons c r ih =>
    cases hc : Text.isBlank c with
    | true =>
      have hskip : firstVariable? (c :: r) = firstVariable? r := by
        rw [firstVariable?, List.splitOnP_cons_eq_if_modifyHead, if_pos hc]
        rfl
      rw [hskip]
      refine ih (Eq.trans ?_ h)
      rw [firstWord, firstWord, trimStart, trimStart, List.dropWhile_cons_of_pos hc]
    | false =>
      rw [firstWord, trimStart_cons hc] at h
      have hsolid : ∀ d ∈ '$' :: p, Text.isBlank d = false := by
        intro d hd
        rw [← h] at hd
        simpa using List.mem_takeWhile_imp hd
      have hsplit := List.takeWhile_append_dropWhile (p := (!Text.isBlank ·)) (l := c :: r)
      rw [h] at hsplit
      rw [firstVariable?, ← hsplit]
      cases hrest : (c :: r).dropWhile (!Text.isBlank ·) with
      | nil =>
        rw [List.append_nil, List.splitOnP_eq_singleton hsolid]
        rfl
      | cons d rest =>
        have hd : Text.isBlank d = true := by
          have := List.head?_dropWhile_not (!Text.isBlank ·) (c :: r)
          rw [hrest] at this
          simpa using this
        rw [List.splitOnP_append_cons_of_forall_mem hsolid d hd]
        rfl

/-- The keys are the parameters of the tags that have a type. -/
lemma mem_keys_paramInfos_iff : p ∈ s.paramInfos.keys ↔
    ∃ t, .tag t ∈ s.contents ∧ t.IsOfParam p ∧ ∃ v, t.value = .typed v := by
  rw [paramInfos]
  cases hs : s.comment? with
  | none => simp [contents, hs, OrderedMap.keys]
  | some c =>
    have htree : s.tree = c.tree := by rw [tree, hs]
    dsimp only
    rw [OrderedMap.mem_keys_ofList, List.mem_map]
    simp only [List.mem_filterMap, DocComment.typedValues, List.mem_filter, ← htree, mem_tags_tree]
    constructor
    · rintro ⟨e, ⟨v, ⟨t, ⟨ht, hname⟩, hv⟩, hkey⟩, rfl⟩
      obtain ⟨w, hw, rfl⟩ := Option.map_eq_some_iff.mp hkey
      obtain ⟨name, value⟩ := t
      cases value with
      | typed v' =>
        obtain rfl := Option.some.inj hv
        exact ⟨_, ht, ⟨by simpa using hname, congrArg _ hw⟩, v', rfl⟩
      | plain u => cases hv
      | malformed u => cases hv
    · rintro ⟨⟨name, value⟩, ht, ⟨hname, hof⟩, v, rfl⟩
      obtain ⟨w, hw, rfl⟩ := Option.map_eq_some_iff.mp hof
      exact ⟨_, ⟨v, ⟨_, ⟨ht, by simpa using hname⟩, rfl⟩, congrArg _ hw⟩, rfl⟩

/-- Whether a line is removed with the parameter. -/
def isParamLine (p : Text) (c : Content TypeRef) : Bool := isParamEntry ('$' :: p) (.new c)

lemma isParamLine_tag_iff {t : Tag TypeRef} : isParamLine p (.tag t) = true ↔
    t.name = "@param" ∧ match t.value with
      | .typed v => v.variableName = some ('$' :: p)
      | .malformed raw => firstWord raw = '$' :: p
      | .plain _ => False := by
  obtain ⟨name, value⟩ := t
  cases value <;> simp [isParamLine, isParamEntry, Entry.new]

section
variable {t : Tag TypeRef} (h : t.IsOfParam p)
include h

/-- Of the readable tags of a parameter those with the bare variable are removed. -/
lemma isParamLine_typed_iff {v : TypedValue TypeRef} (hv : t.value = .typed v) :
    isParamLine p (.tag t) = true ↔ v.variableName = some ('$' :: p) := by
  rw [isParamLine_tag_iff, hv]
  exact and_iff_right h.1

/-- Of those that cannot be read those that begin with the variable are removed. -/
lemma isParamLine_malformed_iff {raw : Text} (hraw : t.value = .malformed raw) :
    isParamLine p (.tag t) = true ↔ firstWord raw = '$' :: p := by
  rw [isParamLine_tag_iff, hraw]
  exact and_iff_right h.1

end

/-- Only tags of the parameter are removed. -/
lemma isOfParam_of_isParamLine (hp : bareVariable p = p) {c : Content TypeRef}
    (h : isParamLine p c) : ∃ t, c = .tag t ∧ t.IsOfParam p := by
  cases c with
  | text u => cases h
  | tag t =>
    obtain ⟨hname, hvalue⟩ := isParamLine_tag_iff.mp h
    refine ⟨t, rfl, hname, ?_⟩
    obtain ⟨name, value⟩ := t
    cases value with
    | typed v =>
      have hv : v.variableName = some ('$' :: p) := hvalue
      dsimp only
      rw [hv]
      exact congrArg some hp
    | malformed raw => exact firstVariable?_of_firstWord hvalue
    | plain u => cases hvalue

lemma removeParam_eq {name : Text} (hname : name.dropWhile (· == '$') = p) (s : DocSlot) :
    s.removeParam name = s.removeLines (isParamLine p) := by
  rw [removeParam, hname]
  rfl

/-- Removing a parameter, given with or without `$`, removes tags of the parameter and nothing else,
and the whole comment where only blank lines are left. The parameter is gone from the types exactly if
each of its readable tags has the `$` and no further mark; and exactly if each tag of it that cannot be
read begins with the variable, none of those is left. -/
theorem removeParam_keeps_and_complete_iff (hs : s.IsTidy) (hp : bareVariable p = p) {name : Text}
    (hname : name.dropWhile (· == '$') = p) :
    let s' := (s.removeParam name).1
    let kept := s.contents.filter (!isParamLine p ·)
    ((∀ c ∈ s.contents, isParamLine p c → ∃ t, c = .tag t ∧ t.IsOfParam p) ∧
      (kept = s.contents → s' = s) ∧
      (kept ≠ s.contents → (∀ c ∈ kept, c.isBlank) → s'.text = none) ∧
      ((∃ c ∈ kept, c.isBlank = false) → s'.contents = kept)) ∧
    (p ∉ s'.paramInfos.keys ↔ ∀ t, .tag t ∈ s.contents → t.IsOfParam p →
      ∀ v, t.value = .typed v → v.variableName = some ('$' :: p)) ∧
    ((∀ t, .tag t ∈ s'.contents → t.IsOfParam p → ∀ raw, t.value ≠ .malformed raw) ↔
      ∀ t, .tag t ∈ s.contents → t.IsOfParam p →
        ∀ raw, t.value = .malformed raw → firstWord raw = '$' :: p) := by
  intro s' kept
  have hrun : s' = (s.removeLines (isParamLine p)).1 := congrArg Prod.fst (removeParam_eq hname s)
  have hmem : ∀ t, .tag t ∈ s'.contents ↔ .tag t ∈ s.contents ∧ isParamLine p (.tag t) = false :=
    fun t => hrun ▸ mem_contents_removeLines (fun _ => rfl) s
  refine ⟨⟨fun c _ h => isOfParam_of_isParamLine hp h, ?_⟩, ?_, ?_⟩
  · rw [hrun]
    exact contents_removeLines (fun _ => rfl) hs.text_ne
  · rw [mem_keys_paramInfos_iff]
    constructor
    · intro h t ht hof v hv
      by_contra hvar
      have hstays := Bool.eq_false_iff.mpr (mt (isParamLine_typed_iff hof hv).mp hvar)
      exact h ⟨t, (hmem t).mpr ⟨ht, hstays⟩, hof, v, hv⟩
    · rintro h ⟨t, ht, hof, v, hv⟩
      obtain ⟨ht, hstays⟩ := (hmem t).mp ht
      simp [(isParamLine_typed_iff hof hv).mpr (h t ht hof v hv)] at hstays
  · constructor
    · intro h t ht hof raw hraw
      by_contra hword
      have hstays := Bool.eq_false_iff.mpr (mt (isParamLine_malformed_iff hof hraw).mp hword)
      exact h t ((hmem t).mpr ⟨ht, hstays⟩) hof raw hraw
    · intro h t ht hof raw hraw
      obtain ⟨ht, hstays⟩ := (hmem t).mp ht
      simp [(isParamLine_malformed_iff hof hraw).mpr (h t ht hof raw hraw)] at hstays

/-- A parameter with a readable tag and one without a type, beside another parameter whose tags are
variadic and unreadable. -/
theorem removeParam_keeps_and_complete_iff_beside :
    let s : DocSlot := ⟨some ("/**\n * Note.\n * @param A|?B $a The a.\n * @param $a\n" ++
      " * @param int ...$b\n * @param array{x: int} $b\n */"), none⟩
    let s' := (s.removeParam "$a").1
    let kept := s.contents.filter (!isParamLine "a" ·)
    s.IsTidy ∧ bareVariable "a" = "a" ∧ List.dropWhile (· == '$') "$a".toList = "a" ∧
    (∃ c ∈ kept, c.isBlank = false) ∧ s'.contents = kept ∧
    s'.text = some "/**\n * Note.\n * @param int ...$b\n * @param array{x: int} $b\n */".toList ∧
    "a".toList ∉ s'.paramInfos.keys ∧
    ∀ t, .tag t ∈ s'.contents → t.IsOfParam "a" → ∀ raw, t.value ≠ .malformed raw := by
  intro s s' kept
  have htidy : s.IsTidy := by decide +kernel
  have hall : ∀ t ∈ s.tree.tags, t.IsOfParam "a" → isParamLine "a" (.tag t) := by decide +kernel
  have hnote : ∃ c ∈ kept, c.isBlank = false := by decide +kernel
  obtain ⟨⟨-, -, -, hothers⟩, hkeys, hraw⟩ :=
    removeParam_keeps_and_complete_iff (p := "a") htidy (by decide)
      (show List.dropWhile (· == '$') "$a".toList = "a" by decide)
  refine ⟨htidy, by decide, by decide, hnote, hothers hnote, by decide +kernel,
    hkeys.mpr fun t ht hof v hv => ?_, hraw.mpr fun t ht hof raw hv => ?_⟩
  · exact (isParamLine_typed_iff hof hv).mp (hall t (mem_tags_tree.mpr ht) hof)
  · exact (isParamLine_malformed_iff hof hv).mp (hall t (mem_tags_tree.mpr ht) hof)

/-- By reference, variadic, or behind a type that cannot be read, the tag stays. -/
theorem removeParam_by_reference :
    let s : DocSlot := ⟨some "/**\n * @param int &$a\n * @param array{x: int} $a\n */", none⟩
    s.removeParam "a" = (s, false) ∧ s.paramInfos.keys = ["a".toList] ∧
      .tag ⟨"@param", .malformed "array{x: int} $a"⟩ ∈ s.contents ∧
      firstVariable? "array{x: int} $a" = some "$a".toList := by
  decide +kernel

end DocSlot
end DocTypes
