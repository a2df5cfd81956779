import DocTypes.Proofs.Doc.SetTag
import DocTypes.Proofs.Doc.TypedTags
import DocTypes.Proofs.Doc.VarTypes

/-!
Setting the types of `@var` twice. Either the comment lists the types after the first time, or the
tag is put again where it stands; neither changes the comment.
-/
namespace DocTypes
open Text

namespace Text

lemma isLine_of_notMem {l : Text} (hn : '\n' ∉ l) (hr : '\r' ∉ l) : IsLine l :=
  ⟨hn, fun r h => hr (by simp [h])⟩

end Text

/-- A name under which types are set: it is read as it is, and bears a type. -/
structure Tag.IsTypeTag (name : Text) : Prop where
  normal : Tag.normalName name = name
  reads : Content.readTagName name = some (name, [])
  bears : Tag.bearsType name

namespace Tag

lemma isTypeTag_var : IsTypeTag "@var" :=
  ⟨by decide, by decide +kernel, by decide⟩

lemma isTypeTag_return : IsTypeTag "@return" :=
  ⟨by decide, by decide +kernel, by decide⟩

end Tag

namespace TypeName

/-- A name is written with its own characters and the marks between and in front of its parts. -/
lemma notMem_inTag {c : Char} (hb : c ≠ '\\') (hbar : c ≠ '|') (hand : c ≠ '&') {n : TypeName}
    (h : c ∉ n.text) : c ∉ n.inTag := by
  rw [inTag]
  split
  · exact h
  · have hmark : c ≠ partMark n.text := by
      unfold partMark
      split
      · exact hand
      · exact hbar
    rw [mem_join_iff_of_notMem (by simpa using hmark)]
    rintro ⟨p, hp, hc⟩
    obtain ⟨part, hpart, rfl⟩ := List.mem_map.mp hp
    have hpart' : c ∉ part := fun hc => (mem_of_mem_splitOn hpart hc).elim h hmark
    rw [absolutePart] at hc
    split at hc
    · exact hpart' hc
    · rw [Name.rooted, List.mem_cons] at hc
      exact hc.elim hb fun hc => hpart' ((List.dropWhile_suffix _).subset hc)

lemma isLine_absolutePart {part : Text} (h : IsLine part) : IsLine (absolutePart part) := by
  rw [absolutePart]
  split
  · exact h
  · rw [Name.rooted]
    by_cases hnil : Name.unrooted part = []
    · rw [hnil]
      exact isLine_of_notMem (by decide) (by decide)
    · exact IsLine.append (s := ['\\']) (by decide)
        (h.of_suffix (List.dropWhile_suffix _)) hnil

lemma absolutePart_ne_nil (part : Text) : absolutePart part ≠ [] := by
  rw [absolutePart]
  split
  · rename_i hr
    rintro rfl
    exact absurd hr (by decide)
  · exact List.cons_ne_nil _ _

/-- What is written of one line is one line. -/
lemma isLine_inTag {n : TypeName} (h : IsLine n.text) : IsLine n.inTag := by
  have hfeed : '\n' ∉ n.inTag := notMem_inTag (by decide) (by decide) (by decide) h.noFeed
  rw [inTag] at hfeed ⊢
  split
  · exact h
  -- Only the last part stands at the end.
  · rename_i halias
    rw [if_neg halias] at hfeed
    obtain ⟨init, last, hparts⟩ :=
      (List.eq_nil_or_concat' (splitOn (partMark n.text) n.text)).resolve_left (splitOn_ne_nil _ _)
    have htext := join_splitOn (partMark n.text) n.text
    rw [hparts, join_concat] at htext
    rw [hparts, List.map_append, List.map_singleton, join_concat] at hfeed ⊢
    have hlast : IsLine last := h.of_suffix ⟨_, htext⟩
    exact (isLine_absolutePart hlast).append (fun hc => hfeed (List.mem_append_left _ hc))
      (absolutePart_ne_nil last)

end TypeName

namespace TypeSet

lemma notMem_inTag {c : Char} (hb : c ≠ '\\') (hbar : c ≠ '|') (hand : c ≠ '&') {types : TypeSet}
    (h : ∀ n ∈ types.toList, c ∉ n.text) : c ∉ types.inTag := by
  rw [inTag, mem_join_iff_of_notMem (by simpa using hbar)]
  rintro ⟨p, hp, hc⟩
  obtain ⟨n, hn, rfl⟩ := List.mem_map.mp hp
  exact TypeName.notMem_inTag hb hbar hand (h n hn) hc

end TypeSet

namespace DocSlot

lemma name_typedTag {name : Text} (hname : Tag.IsTypeTag name) (type : Text) :
    (typedTag name type).name = name := hname.normal

lemma typedTag_value (name type : Text) :
    ∃ t, (typedTag name type).value = .typed (.ofType t) ∧ (TypeExpr.read type = .ok t ∨
      (∃ e, TypeExpr.read type = .error e) ∧ t = .name type) := by
  refine ⟨_, rfl, ?_⟩
  split
  · exact .inl ‹_›
  · exact .inr ⟨⟨_, ‹_›⟩, rfl⟩

/-- The value is written as its type. -/
lemma render_ofType (t : TypeExpr Text) : (TagValue.typed (.ofType t)).render = t.render := by
  simp [TagValue.render, TypedValue.render, TypedValue.ofType]

/-- Line breaks stand in no name and are no marks. -/
lemma notMem_of_isBreak {c : Char} (hc : c = '\n' ∨ c = '\r') :
    TypeExpr.continuesName c = false ∧ c ∉ ("$this" : Text) ∧
      c ∉ TypeExpr.syntaxMarks := by
  rcases hc with rfl | rfl <;> decide

/-- A type holds its marks, and the names it was read with. -/
lemma notMem_render_of_read {c : Char} (hcont : TypeExpr.continuesName c = false)
    (hthis : c ∉ ("$this" : Text)) (hmarks : c ∉ TypeExpr.syntaxMarks) {type : Text}
    {t : TypeExpr Text} (h : TypeExpr.read type = .ok t) : c ∉ t.render :=
  TypeExpr.notMem_render hmarks fun n hn =>
    TypeExpr.notMem_of_isName hcont hthis ((TypeExpr.isWritten_of_read h).2 n hn)

/-- A tag for a type holds the marks of the type syntax, and what the type was written with. -/
lemma notMem_value_typedTag {c : Char} (hcont : TypeExpr.continuesName c = false)
    (hthis : c ∉ ("$this" : Text)) (hmarks : c ∉ TypeExpr.syntaxMarks) (name : Text) {type : Text}
    (h : c ∉ type) : c ∉ (typedTag name type).value.render := by
  obtain ⟨t, hvalue, ht⟩ := typedTag_value name type
  rw [hvalue, render_ofType]
  rcases ht with ht | ⟨-, rfl⟩
  · exact notMem_render_of_read hcont hthis hmarks ht
  · exact h

lemma notMem_render_typedTag {name : Text} (hname : Tag.IsTypeTag name) {c : Char}
    (hcont : TypeExpr.continuesName c = false) (hthis : c ∉ ("$this" : Text)) (hn : c ∉ name)
    (hmarks : c ∉ TypeExpr.syntaxMarks) {type : Text} (h : c ∉ type) :
    c ∉ (typedTag name type).render := by
  have hblank : c ≠ ' ' := fun hc => hmarks (by simp [hc, TypeExpr.syntaxMarks])
  exact Tag.notMem_render hblank ((name_typedTag hname type).symm ▸ hn)
    (notMem_value_typedTag hcont hthis hmarks name h)

/-- A tag for a type, or for any text of one line, is read as one line. -/
lemma isSteady_typedTag {name : Text} (hname : Tag.IsTypeTag name) {type : Text}
    (h : (∃ t, TypeExpr.read type = .ok t) ∨ IsLine type) : (typedTag name type).IsSteady := by
  have hreads : Content.readTagName name = some ((typedTag name type).name, []) :=
    (name_typedTag hname type).symm ▸ hname.reads
  obtain ⟨t, hvalue, ht⟩ := typedTag_value name type
  have htype : IsLine t.render := by
    rcases ht with ht | ⟨⟨e, he⟩, rfl⟩
    · have hbreak : ∀ c, c = '\n' ∨ c = '\r' → c ∉ t.render := fun c hc =>
        notMem_render_of_read (notMem_of_isBreak hc).1 (notMem_of_isBreak hc).2.1
          (notMem_of_isBreak hc).2.2 ht
      exact isLine_of_notMem (hbreak _ (.inl rfl)) (hbreak _ (.inr rfl))
    · refine h.resolve_left fun ⟨t, ht⟩ => ?_
      rw [he] at ht
      cases ht
  have hline : IsLine (typedTag name type).value.render := by
    rwa [hvalue, render_ofType]
  exact ⟨Tag.isLine_render hreads hline, _,
    Tag.read_render hreads ((name_typedTag hname type).symm ▸ hname.bears)⟩

/-- So is a tag for names that are listed. -/
lemma isSteady_of_isListed {types : TypeSet} (h : ∀ n ∈ types.toList, n.IsListed) :
    (typedTag "@var" types.inTag).IsSteady := by
  have hbreak : ∀ c, c = '\n' ∨ c = '\r' → c ∉ types.inTag := by
    intro c hc
    obtain ⟨hcont, hthis, hmarks⟩ := notMem_of_isBreak hc
    simp only [TypeExpr.syntaxMarks, List.mem_cons, List.not_mem_nil, not_or] at hmarks
    obtain ⟨-, -, -, hl, hr, hbar, -⟩ := hmarks
    exact TypeSet.notMem_inTag_of_isListed hcont hthis hl hr hbar h
  exact isSteady_typedTag Tag.isTypeTag_var
    (.inr (isLine_of_notMem (hbreak _ (.inl rfl)) (hbreak _ (.inr rfl))))

end DocSlot

/-! What a tag that was set is read as. -/

namespace TypedValue

/-- A text that is a type and nothing else is the value of that type. -/
lemma read_of_read {s : Text} {t : TypeExpr Text} (h : TypeExpr.read s = .ok t) :
    TypedValue.read s = .typed (.ofType t) := by
  unfold TypeExpr.read at h
  unfold TypedValue.read
  split at h
  · cases h
  · rename_i hp
    cases h
    rw [hp]
    rfl
  · cases h

end TypedValue

namespace DocSlot

/-- The first value of a name is that of the first tag of the name. -/
lemma head?_typedValues {c : DocComment} {name : Text} {es fs : List Entry} {e : Entry}
    {v : TypedValue TypeRef} (hc : c.tree.entries = es ++ e :: fs)
    (hes : ∀ e ∈ es, e.isTagNamed name = false) (he : e.content = .tag ⟨name, .typed v⟩) :
    (c.typedValues name).head? = some v := by
  have hnone : (es.filterMap (·.content.tag?)).filter (·.name == name) = [] := by
    rw [List.filter_eq_nil_iff]
    intro t ht
    obtain ⟨e, he, hc⟩ := List.mem_filterMap.mp ht
    have hn := hes e he
    cases hec : e.content with
    | text s => simp [hec, Content.tag?] at hc
    | tag u => simp_all [Content.tag?, Entry.isTagNamed]
  have hsome : e.content.tag? = some ⟨name, .typed v⟩ := by
    rw [he]
    rfl
  rw [DocComment.typedValues, DocTree.tags, hc, List.filterMap_append, List.filter_append, hnone,
    List.nil_append, List.filterMap_cons_some (f := fun e : Entry => e.content.tag?) hsome,
    List.filter_cons_of_pos (by simp)]
  rfl

lemma typeInfo_asType {types : TypeSet} (h : ∀ n ∈ types.toList, n.IsListed)
    (scope : Option NameScope) :
    TypeInfo.ofValue ((TypedValue.ofType types.asType).map (TypeRef.resolveIn scope ∘ .ofWritten)) =
      ⟨types.toList.map TypeName.inTag, types.toList.map fun n =>
        ((TypeRef.ofWritten n.core).resolveIn scope).full ++ TypeExpr.brackets n.depth⟩ := by
  have hwritten : ∀ n ∈ types.toList,
      ((TypeRef.ofWritten n.core).resolveIn scope).written ++ TypeExpr.brackets n.depth =
        n.inTag := by
    intro n hn
    rw [TypeRef.written_resolveIn, TypeRef.written_ofWritten, (h n hn).inTag]
  simp only [TypeInfo.ofValue, TypedValue.map, TypedValue.ofType, TypeExpr.written, TypeExpr.full,
    TypeExpr.map_map, TypeSet.alternatives_map_asType, Function.comp_apply,
    List.map_congr_left hwritten]

/-- A tag for names that are listed holds the type that lists them. -/
lemma render_value_typedTag {types : TypeSet} (h : ∀ n ∈ types.toList, n.IsListed)
    (hne : types.toList ≠ []) : (typedTag "@var" types.inTag).value.render = types.inTag := by
  have hvalue : (typedTag "@var" types.inTag).value = .typed (.ofType types.asType) := by
    rw [typedTag, TypeSet.read_inTag h hne]
    rfl
  rw [hvalue, render_ofType, TypeSet.render_asType h]

lemma read_render_typedTag {types : TypeSet} (h : ∀ n ∈ types.toList, n.IsListed)
    (hne : types.toList ≠ []) :
    Content.read (trimEnd (typedTag "@var" types.inTag).render) =
      .tag ⟨"@var", .typed (.ofType types.asType)⟩ := by
  rw [Tag.read_render (t := typedTag "@var" types.inTag) Tag.isTypeTag_var.reads
    Tag.isTypeTag_var.bears, render_value_typedTag h hne,
    TypedValue.read_of_read (TypeSet.read_inTag h hne)]
  rfl

/-- The types of `@var` after they were set. -/
lemma varInfo?_setTag {s : DocSlot} (hs : s.IsTidy) {types : TypeSet}
    (h : ∀ n ∈ types.toList, n.IsListed) (hne : types.toList ≠ []) :
    (s.setTag (typedTag "@var" types.inTag)).1.varInfo? =
      some ⟨types.toList.map TypeName.inTag, types.toList.map fun n =>
        ((TypeRef.ofWritten n.core).resolveIn s.scope).full ++ TypeExpr.brackets n.depth⟩ := by
  have ht := isSteady_of_isListed h
  obtain ⟨d, source, hf, hk, hset⟩ := exists_setTag hs (typedTag "@var" types.inTag)
  obtain ⟨es, e, fs, found⟩ :=
    DocTree.exists_isFound hf hk ht (TypeRef.written_resolveIn s.scope) source
  have he := found.content
  rw [read_render_typedTag h hne] at he
  have hfirst := head?_typedValues (c := .read ((d.putTag _).print source) s.scope)
    found.entries found.before he
  rw [hset, varInfo?, comment?, Option.map_some, Option.bind_some, DocComment.varInfo?]
  exact (congrArg (Option.map TypeInfo.ofValue) hfirst).trans
    (congrArg some (typeInfo_asType h s.scope))

variable {s : DocSlot} {types types' : TypeSet}

/-- What was set is listed, in whatever order. -/
lemma listsVarTypes_setTag (hs : s.IsTidy) (h : ∀ n ∈ types.toList, n.IsListed)
    (hne : types.toList ≠ []) (hp : types'.toList.Perm types.toList) :
    (s.setTag (typedTag "@var" types.inTag)).1.listsVarTypes types' := by
  rw [listsVarTypes, varInfo?_setTag hs h hne]
  dsimp only
  rw [TypeSet.comparable_listed h hp, List.isPerm_iff]
  exact (hp.map _).symm

lemma toList_ne_nil (h : types.isEmpty = false) : types.toList ≠ [] := by
  intro hnil
  simp [OrderedSet.isEmpty, hnil] at h

/-- A tag for names that can be listed lists them. -/
lemma listsVarTypes_setTag_of_isListable (hs : s.IsTidy) (h : ∀ n ∈ types.toList, n.IsListable)
    (hne : types.isEmpty = false) (hp : types'.toList.Perm types.toList) :
    (s.setTag (typedTag "@var" types.inTag)).1.listsVarTypes types' :=
  listsVarTypes_setTag hs (fun n hn => TypeName.isListed (h n hn)) (toList_ne_nil hne) hp

/-- The order of the types does not matter for what is listed. -/
lemma listsVarTypes_perm (hp : types'.toList.Perm types.toList) :
    s.listsVarTypes types' = s.listsVarTypes types := by
  have hany : ∀ written, types'.toList.any (fun n => n.isAlias && n.text == written) =
      types.toList.any fun n => n.isAlias && n.text == written := by
    intro written
    rw [Bool.eq_iff_iff, List.any_eq_true, List.any_eq_true]
    simp only [hp.mem_iff]
  rw [listsVarTypes, listsVarTypes]
  cases s.varInfo? with
  | none => rfl
  | some i =>
    have hc : comparable types' i = comparable types i := by simp only [comparable, hany]
    dsimp only
    rw [hc, Bool.eq_iff_iff, List.isPerm_iff, List.isPerm_iff]
    exact ⟨fun h => h.trans (hp.map _), fun h => h.trans (hp.map _).symm⟩

lemma changeVar_of_idle (h : types.isEmpty || s.listsVarTypes types) :
    s.changeVar types = (s, false) := if_pos h

/-- After they were set, the types are listed. -/
lemma listsVarTypes_changeVar_of_isListed (hs : s.IsTidy) (h : ∀ n ∈ types.toList, n.IsListed)
    (hne : types.isEmpty = false) : (s.changeVar types).1.listsVarTypes types := by
  by_cases hlists : s.listsVarTypes types
  · rw [changeVar_of_idle (by rw [hlists, Bool.or_true])]
    exact hlists
  · rw [changeVar, if_neg (by simp [hne, hlists])]
    exact listsVarTypes_setTag hs h (toList_ne_nil hne) (List.Perm.refl _)

lemma listsVarTypes_changeVar (hs : s.IsTidy) (hl : ∀ n ∈ types.toList, n.IsListable)
    (hne : types.isEmpty = false) : (s.changeVar types).1.listsVarTypes types :=
  listsVarTypes_changeVar_of_isListed hs (fun n hn => TypeName.isListed (hl n hn)) hne

/-- Setting the types of `@var` a second time changes nothing; where all of them can be listed,
they may come in another order the second time. -/
theorem changeVar_changeVar (hs : s.IsTidy) (types : TypeSet) :
    ((∀ n ∈ types.toList, '\n' ∉ n.text ∧ '\r' ∉ n.text) →
      (s.changeVar types).1.changeVar types = ((s.changeVar types).1, false)) ∧
    ((∀ n ∈ types.toList, n.IsListable) → ∀ types' : TypeSet, types'.toList.Perm types.toList →
      (s.changeVar types).1.changeVar types' = ((s.changeVar types).1, false)) := by
  by_cases hidle : types.isEmpty || s.listsVarTypes types
  · -- Nothing was set, and nothing is the second time.
    rw [changeVar_of_idle hidle]
    refine ⟨fun _ => changeVar_of_idle hidle, fun _ types' hp => changeVar_of_idle ?_⟩
    have hempty : types'.isEmpty = types.isEmpty := hp.isEmpty_eq
    rwa [hempty, listsVarTypes_perm hp]
  · have hset : s.changeVar types = s.setTag (typedTag "@var" types.inTag) := if_neg hidle
    rw [hset]
    refine ⟨fun hbreaks => ?_, fun hl types' hp => ?_⟩
    · -- The tag is set once more, or it is listed after all.
      have hn : '\n' ∉ types.inTag :=
        TypeSet.notMem_inTag (by decide) (by decide) (by decide) fun n hn => (hbreaks n hn).1
      have hr : '\r' ∉ types.inTag :=
        TypeSet.notMem_inTag (by decide) (by decide) (by decide) fun n hn => (hbreaks n hn).2
      rw [changeVar]
      split
      · rfl
      · exact setTag_setTag hs (isSteady_typedTag Tag.isTypeTag_var (.inr (isLine_of_notMem hn hr)))
    · rw [Bool.or_eq_true, not_or, Bool.not_eq_true] at hidle
      refine changeVar_of_idle ?_
      rw [listsVarTypes_setTag_of_isListable hs hl hidle.1 hp, Bool.or_true]

/-- An array of a class or null, and the same the other way round. -/
theorem changeVar_changeVar_array_or_null :
    let s : DocSlot := ⟨some "/** @var int */", none⟩
    let types : TypeSet := .ofNames ["Foo[]", "null"]
    (s.changeVar types).1.text = some "/** @var \\Foo[]|null */".toList ∧
      (s.changeVar types).1.changeVar types = ((s.changeVar types).1, false) ∧
      (s.changeVar types).1.changeVar (.ofNames ["null", "Foo[]"]) =
        ((s.changeVar types).1, false) := by
  intro s types
  have htidy : s.IsTidy := by decide +kernel
  have hlistable : ∀ n ∈ types.toList, n.IsListable := by decide +kernel
  obtain ⟨hsame, hperm⟩ := changeVar_changeVar htidy types
  refine ⟨by decide +kernel, hsame ?_, hperm hlistable _ (by decide)⟩
  decide

end DocSlot
end DocTypes
