import DocTypes.Proofs.Doc.TagReading

/-!
A tag with a type, read from a line and printed with other names in it. It is one line again, and
its names are read as they are, unless the type cannot be read at all.
-/
namespace DocTypes
open Text

namespace TypeExpr

/-- The marks of the type syntax, beside the names. -/
def syntaxMarks : Text := ['?', '(', ')', '[', ']', '|', '&', '<', '>', ',', ' ']

lemma notMem_parenthesizedIf {c : Char} (hc : c ∉ syntaxMarks) {s : Text} (h : c ∉ s) (b : Bool) :
    c ∉ parenthesizedIf b s := by
  simp only [syntaxMarks, List.mem_cons, not_or] at hc
  cases b <;> simp [parenthesizedIf, h, hc]

lemma notMem_renderMembers {c : Char} (hc : c ∉ syntaxMarks) {sep : Text} (hsep : c ∉ sep)
    {ts : List (TypeExpr Text)} (h : ∀ t ∈ ts, c ∉ t.render) : c ∉ join sep (renderMembers ts) := by
  rw [renderMembers_eq, mem_join_iff_of_notMem hsep]
  rintro ⟨p, hp, hc'⟩
  obtain ⟨t, ht, rfl⟩ := List.mem_map.mp hp
  exact notMem_parenthesizedIf hc (h t ht) _ hc'

/-- A printed type holds its marks and what its names hold. -/
lemma notMem_render {c : Char} (hc : c ∉ syntaxMarks) {t : TypeExpr Text}
    (h : ∀ n ∈ t.names, c ∉ n) : c ∉ t.render := by
  have hmarks := hc
  simp only [syntaxMarks, List.mem_cons, not_or] at hmarks
  induction t with
  | name n => exact h n (by simp [names])
  | nullable t ih => simpa [render, hmarks] using ih h
  | array t ih => simpa [render, hmarks] using notMem_parenthesizedIf hc (ih h) _
  | union ts ih =>
    simp only [names, namesList_eq, List.mem_flatMap] at h
    rw [render]
    apply notMem_renderMembers hc (by simp [hmarks])
    exact fun t ht => ih t ht fun n hn => h n ⟨t, ht, hn⟩
  | intersection ts ih =>
    simp only [names, namesList_eq, List.mem_flatMap] at h
    rw [render]
    apply notMem_renderMembers hc (by simp [hmarks])
    exact fun t ht => ih t ht fun n hn => h n ⟨t, ht, hn⟩
  | generic b ts ih =>
    simp only [names, namesList_eq, List.mem_cons, List.mem_flatMap] at h
    have hargs : c ∉ join [',', ' '] (renderArgs ts) := by
      rw [renderArgs_eq, mem_join_iff_of_notMem (by simp [hmarks])]
      rintro ⟨p, hp, hc'⟩
      obtain ⟨t, ht, rfl⟩ := List.mem_map.mp hp
      exact ih t ht (fun n hn => h n (.inr ⟨t, ht, hn⟩)) hc'
    simpa [render, hmarks, hargs] using h b (.inl rfl)

end TypeExpr

namespace Tag

lemma notMem_render {c : Char} (hc : c ≠ ' ') {t : Tag Text} (hn : c ∉ t.name)
    (hv : c ∉ t.value.render) : c ∉ t.render := by
  rw [render]
  split
  · exact hn
  · rename_i h
    rw [h] at hv
    simp_all
  · rename_i h
    rw [h] at hv
    simp_all

end Tag

namespace TypedValue

variable {ν : Type}

/-- What follows the type has no white space at its ends and no line break. -/
structure IsTrim (v : TypedValue ν) : Prop where
  variableName : ∀ n, v.variableName = some n → Solid n ∧ '\n' ∉ n
  description : v.description = [] ∨ Solid v.description
  noFeed : '\n' ∉ v.description

lemma eq_nil_or_solid_trim (s : Text) : trim s = [] ∨ Solid (trim s) := by
  by_cases h : trim s = []
  · exact .inl h
  · exact .inr (solid_trim h)

lemma solid_takeWhile_of_startsVariable {s : Text} (h : startsVariable s) :
    Solid (s.takeWhile (!Text.isBlank ·)) := by
  refine .of_forall (fun c hc => by simpa using List.mem_takeWhile_imp hc) fun hnil => ?_
  have hmarks : ∀ mark ∈ ["$", "&$", "...$", "&...$"],
      ∃ c r, mark.toList = c :: r ∧ Text.isBlank c = false := by
    intro mark hm
    simp only [List.mem_cons, List.not_mem_nil, or_false] at hm
    rcases hm with rfl | rfl | rfl | rfl <;> exact ⟨_, _, rfl, by decide⟩
  obtain ⟨mark, hm, hs⟩ := List.any_eq_true.mp h
  obtain ⟨c, r, hcr, hc⟩ := hmarks mark hm
  obtain ⟨t, rfl⟩ := startsWith_iff.mp hs
  simp [hcr, hc] at hnil

/-- The type is read from the front of the text. A value that bears no type is the whole text. -/
lemma read_cases (s : Text) :
    (∃ v rest, read s = .typed v ∧ TypeExpr.readPrefix (trim s) = .ok (v.type, rest)) ∨
      read s = .malformed (trim s) := by
  rw [read]
  split
  · exact .inr rfl
  · rename_i hread
    dsimp only
    split
    · exact .inl ⟨_, _, rfl, hread⟩
    · exact .inl ⟨_, _, rfl, hread⟩

lemma isTrim_of_read {s : Text} {v : TypedValue Text} (h : read s = .typed v) (hn : '\n' ∉ s) :
    TypeExpr.IsWritten v.type ∧ v.IsTrim := by
  unfold read at h
  split at h
  · cases h
  · rename_i t rest hread
    obtain ⟨p, hp, hd, -⟩ := TypeExpr.consumes_readPrefix hread
    have hw := hd.isWritten
    have hrest : rest <:+ trim s := ⟨p, hp.symm⟩
    have hn' : '\n' ∉ trimStart rest := fun hc =>
      hn (mem_of_mem_trim (hrest.subset (mem_of_mem_trimStart hc)))
    have htail : trimStart rest = trim rest := by
      rw [trim, ← trimStart_trimEnd, trimEnd_of_suffix hrest (trimEnd_trim s)]
    dsimp only at h
    split at h
    · rename_i hv
      cases h
      refine ⟨hw, ?_, eq_nil_or_solid_trim _, fun hc => ?_⟩
      · rintro n ⟨⟩
        exact ⟨solid_takeWhile_of_startsVariable hv, fun hc =>
          hn' ((List.takeWhile_prefix _).subset hc)⟩
      · exact hn' ((List.dropWhile_suffix _).subset (mem_of_mem_trim hc))
    · cases h
      refine ⟨hw, fun n hv => ?_, htail ▸ eq_nil_or_solid_trim rest, hn'⟩
      cases hv

lemma solid_render {v : TypedValue Text} (h : v.IsTrim) (ht : Solid v.type.render)
    (hn : '\n' ∉ v.type.render) : Solid v.render ∧ '\n' ∉ v.render := by
  obtain ⟨var, hv, hsolid, hfeed⟩ : ∃ var, v.render = v.type.render ++ var ++
      (if v.description.isEmpty then [] else ' ' :: v.description) ∧
      Solid (v.type.render ++ var) ∧ '\n' ∉ v.type.render ++ var := by
    rw [render]
    cases hv : v.variableName with
    | none => exact ⟨[], rfl, by simpa using ht, by simpa using hn⟩
    | some n =>
      obtain ⟨hsn, hnn⟩ := h.variableName n hv
      exact ⟨' ' :: n, rfl, by simpa using ht.between [' '] hsn, by simp [hn, hnn]⟩
  rw [hv]
  rcases h.description with hd | hd
  · rw [hd, List.isEmpty_nil, if_pos rfl, List.append_nil]
    exact ⟨hsolid, hfeed⟩
  · have hne : v.description.isEmpty = false := by simpa using hd.ne_nil
    rw [hne, if_neg (by decide)]
    refine ⟨by simpa using hsolid.between [' '] hd, ?_⟩
    have := h.noFeed
    simp_all

end TypedValue

namespace Tag

lemma solid_render {t : Tag Text} (hn : Solid t.name) (hv : Solid t.value.render) :
    Solid t.render := by
  rw [render]
  split
  · exact hn
  · rename_i r h
    exact h ▸ hn.append hv
  · rename_i c r _ h
    simpa [h] using hn.between [' '] hv

end Tag

namespace Content

/-- The names of a line, which has some only if it is a tag with a type. -/
def names {ν : Type} : Content ν → List ν
  | .tag ⟨_, .typed v⟩ => v.type.names
  | _ => []

@[simp] lemma names_map {ν μ : Type} (f : ν → μ) (c : Content ν) :
    (c.map f).names = c.names.map f := by
  cases c with
  | text s => rfl
  | tag t =>
    obtain ⟨name, value⟩ := t
    cases value with
    | typed v => exact TypeExpr.names_map f v.type
    | plain s => rfl
    | malformed s => rfl

lemma names_tag {ν : Type} (name : Text) (value : TagValue ν) :
    (Content.tag ⟨name, value⟩).names =
      ((value.typed?.map (·.type)).map TypeExpr.names).getD [] := by
  cases value <;> rfl

lemma notMem_of_readTagName {s n rest : Text} (h : readTagName s = some (n, rest)) {c : Char}
    (hc : Text.isBlank c) : c ∉ n := fun hm => by
  simp [isBlank_of_readTagName h c hm] at hc

/-- A tag is its name and what the rest of the line is read as. -/
lemma exists_of_read_tag {s : Text} {t : Tag Text} (h : Content.read s = .tag t) :
    ∃ rest, readTagName s = some (t.name, rest) ∧
      t.value = if Tag.bearsType t.name then TypedValue.read rest else .plain (trim rest) := by
  rw [Content.read] at h
  split at h
  · cases h
  · obtain rfl := Content.tag.inj h
    exact ⟨_, ‹_›, rfl⟩

lemma exists_of_read_typed {s name : Text} {v : TypedValue Text}
    (h : Content.read s = .tag ⟨name, .typed v⟩) :
    ∃ rest, readTagName s = some (name, rest) ∧ Tag.bearsType name ∧
      TypedValue.read rest = .typed v := by
  obtain ⟨rest, hname, hv⟩ := exists_of_read_tag h
  split at hv
  · exact ⟨rest, hname, ‹_›, hv.symm⟩
  · cases hv

lemma isTrim_of_read_tag {s name : Text} {v : TypedValue Text} (hs : '\n' ∉ s)
    (h : Content.read s = .tag ⟨name, .typed v⟩) : TypeExpr.IsWritten v.type ∧ v.IsTrim := by
  obtain ⟨rest, hname, -, hv⟩ := exists_of_read_typed h
  apply TypedValue.isTrim_of_read hv
  rw [append_of_readTagName hname] at hs
  exact fun hc => hs (List.mem_append_right name hc)

lemma isName_of_mem_names_read {s : Text} (hs : '\n' ∉ s) :
    ∀ n ∈ (Content.read s).names, TypeExpr.isName n := by
  cases h : Content.read s with
  | text _ => simp [names]
  | tag t =>
    obtain ⟨name, value⟩ := t
    cases value with
    | plain _ => simp [names]
    | malformed _ => simp [names]
    | typed v => exact (isTrim_of_read_tag hs h).1.2

/-- A tag that was read, printed with another type, is one line. -/
lemma solid_render_typed {s name : Text} {v : TypedValue Text} (hs : '\n' ∉ s)
    (h : Content.read s = .tag ⟨name, .typed v⟩) {t : TypeExpr Text} (hp : t.isProper)
    (hn : ∀ n ∈ t.names, Solid n ∧ '\n' ∉ n) :
    let tag : Tag Text := ⟨name, .typed { v with type := t }⟩
    '\n' ∉ tag.render ∧ Solid tag.render := by
  intro tag
  obtain ⟨rest, hname, -, -⟩ := exists_of_read_typed h
  have htrim := (isTrim_of_read_tag hs h).2
  have htrim' : TypedValue.IsTrim { v with type := t } :=
    ⟨htrim.variableName, htrim.description, htrim.noFeed⟩
  have hfeed : '\n' ∉ t.render := TypeExpr.notMem_render (by decide) fun n hn' => (hn n hn').2
  obtain ⟨hvsolid, hvfeed⟩ := TypedValue.solid_render htrim'
    (TypeExpr.solid_render_of_solid hp fun n hn' => (hn n hn').1) hfeed
  exact ⟨Tag.notMem_render (by decide) (notMem_of_readTagName hname (by decide)) hvfeed,
    Tag.solid_render (solid_of_readTagName hname) hvsolid⟩

/-- A tag that was read, printed with another type and read again. -/
theorem exists_read_render {s name : Text} {v : TypedValue Text} (hs : '\n' ∉ s)
    (h : Content.read s = .tag ⟨name, .typed v⟩) {t : TypeExpr Text} (hp : t.isProper)
    (hw : ∀ n ∈ t.names, TypeExpr.isWord n) :
    let tag : Tag Text := ⟨name, .typed { v with type := t }⟩
    '\n' ∉ tag.render ∧ Solid tag.render ∧ ∃ value, Content.read tag.render = .tag ⟨name, value⟩ ∧
      value.typed?.map (·.type) = if t.isReadable then some (TypeExpr.regroup t) else none := by
  intro tag
  obtain ⟨rest, hname, hbears, -⟩ := exists_of_read_typed h
  have hwords : ∀ n ∈ t.names, Solid n ∧ '\n' ∉ n := fun n hn =>
    ⟨TypeExpr.solid_of_isWord (hw n hn), TypeExpr.notMem_of_isWord
      (TypeExpr.continuesName_of_isBlank (by decide)) (by decide) (hw n hn)⟩
  obtain ⟨hfeed, hsolid⟩ := solid_render_typed hs h hp hwords
  have hread := Tag.read_render (t := tag) hname hbears
  rw [hsolid.trimEnd_eq] at hread
  exact ⟨hfeed, hsolid, _, hread, TypedValue.typed?_read_render (v := { v with type := t }) hp hw⟩

end Content
end DocTypes
