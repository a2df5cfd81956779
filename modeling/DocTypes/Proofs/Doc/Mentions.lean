import DocTypes.Inference.Strategy
import DocTypes.Proofs.Doc.Occurrences

/-!
Tags that are looked for in the text of a comment, and tags that are looked for among its lines. The
text has every mention of a tag, the lines have those they begin with.
-/
namespace DocTypes
open Text

/-- The tag name and its end stand here, perhaps behind a backslash. -/
def BeginsTag (name s : Text) : Prop :=
  ∃ root rest, s = root ++ (name ++ rest) ∧ (root = [] ∨ root = ['\\']) ∧ endsTagName rest

/-- The tag is spelled out somewhere in the text: `@`, perhaps a backslash, the name and its end. -/
def IsSpelledOut (name text : Text) : Prop :=
  ∃ before after, text = before ++ '@' :: after ∧ BeginsTag name after

namespace DocSlot

lemma startsWithName_iff {name s : Text} :
    startsWithName name s = true ↔ ∃ rest, s = name ++ rest ∧ endsTagName rest := by
  rw [startsWithName]
  constructor
  · intro h
    split at h
    · exact ⟨[], (after?_eq_some_iff.mp ‹_›).symm, rfl⟩
    · exact ⟨_, (after?_eq_some_iff.mp ‹_›).symm, by simpa [endsTagName] using h⟩
    · cases h
  · rintro ⟨rest, rfl, hends⟩
    have hafter : after? name (name ++ rest) = some rest := after?_eq_some_iff.mpr rfl
    rw [hafter]
    cases rest with
    | nil => rfl
    | cons c r => simpa [endsTagName] using hends

lemma beginsTag_iff {name s : Text} : BeginsTag name s ↔
    startsWithName name s = true ∨ ∃ r, s = '\\' :: r ∧ startsWithName name r = true := by
  simp only [startsWithName_iff]
  constructor
  · rintro ⟨root, rest, rfl, rfl | rfl, hends⟩
    · exact .inl ⟨rest, rfl, hends⟩
    · exact .inr ⟨name ++ rest, rfl, rest, rfl, hends⟩
  · rintro (⟨rest, rfl, hends⟩ | ⟨r, rfl, rest, rfl, hends⟩)
    · exact ⟨[], rest, rfl, .inl rfl, hends⟩
    · exact ⟨['\\'], rest, rfl, .inr rfl, hends⟩

end DocSlot

namespace IsSpelledOut

variable {name s t : Text} {c : Char}

lemma not_nil (name : Text) : ¬IsSpelledOut name [] := Occurs.not_nil (BeginsTag name)

lemma cons_iff : IsSpelledOut name (c :: s) ↔
    (c = '@' ∧ BeginsTag name s) ∨ IsSpelledOut name s :=
  Occurs.cons_iff

/-- The text is searched for just this. -/
lemma mentions_iff : DocSlot.mentions name s = true ↔ IsSpelledOut name s := by
  induction s using DocSlot.mentions.induct with
  | case1 => simpa [DocSlot.mentions] using not_nil name
  | case2 r ih =>
    rw [DocSlot.mentions, Bool.or_eq_true, Bool.or_eq_true, ih, cons_iff (c := '@'),
      DocSlot.beginsTag_iff]
    simp
  | case3 r hroot ih =>
    rw [DocSlot.mentions, Bool.or_eq_true, ih, cons_iff, DocSlot.beginsTag_iff]
    · have : ¬∃ r', r = '\\' :: r' ∧ DocSlot.startsWithName name r' = true := by
        rintro ⟨r', rfl, -⟩
        exact hroot r' rfl
      simp [this]
    · exact hroot
  | case4 c r hroot hmark ih =>
    rw [DocSlot.mentions, ih, cons_iff]
    · have : c ≠ '@' := fun h => hmark h
      simp [this]
    · exact hroot
    · exact hmark

end IsSpelledOut

/-! Text around a mention. -/

lemma endsTagName_append_cons {s t : Text} {c : Char} (hc : continuesTagName c = false) :
    endsTagName (s ++ c :: t) = endsTagName s := by
  cases s with
  | nil => simp [endsTagName, hc]
  | cons d s => rfl

/-- A tag ends in front of what no tag name goes on with. -/
lemma beginsTag_append_cons_iff {name : Text} (hname : ∀ c ∈ name, continuesTagName c) {c : Char}
    (hc : continuesTagName c = false) (s t : Text) :
    BeginsTag name (s ++ c :: t) ↔ BeginsTag name s := by
  constructor
  · rintro ⟨root, rest, h, hroot, hends⟩
    have hmem : c ∉ root ++ name := by
      intro hmem
      have hcontinues : continuesTagName c = true := by
        rcases List.mem_append.mp hmem with h | h
        · rcases hroot with rfl | rfl
          · cases h
          · rw [List.mem_singleton.mp h]
            decide +kernel
        · exact hname c h
      rw [hc] at hcontinues
      cases hcontinues
    rw [← List.append_assoc] at h
    obtain ⟨m, hs, rfl⟩ := exists_append_of_notMem h hmem
    exact ⟨root, m, by rw [hs, List.append_assoc], hroot, endsTagName_append_cons hc ▸ hends⟩
  · rintro ⟨root, rest, rfl, hroot, hends⟩
    exact ⟨root, rest ++ c :: t, by simp, hroot, (endsTagName_append_cons hc).trans hends⟩

lemma isConfined_beginsTag {name : Text} (hname : ∀ c ∈ name, continuesTagName c) :
    IsConfined (BeginsTag name) := fun s _ t hc => beginsTag_append_cons_iff hname hc.1 s t

/-- A doc comment has lines that are read one by one, and together they mention what its text
mentions. -/
lemma DocTree.exists_lines {text : Text} (hd : DocTree.isDocComment (trim text)) :
    ∃ lines : List Text,
      (DocTree.read text).entries.map Entry.written = lines.map Content.read ∧
      ∀ name : Text, (∀ c ∈ name, continuesTagName c) →
        (IsSpelledOut name text ↔ ∃ l ∈ lines, IsSpelledOut name l) := by
  obtain ⟨lines, hread, hoccurs⟩ := DocTree.exists_lines_occurs hd
  exact ⟨lines, hread, fun name hname => hoccurs (BeginsTag name) (isConfined_beginsTag hname)⟩

/-! Tags at the beginning of a line. -/

lemma endsTagName_dropWhile (s : Text) : endsTagName (s.dropWhile continuesTagName) = true := by
  have h := List.head?_dropWhile_not continuesTagName s
  rw [endsTagName]
  cases hd : (s.dropWhile continuesTagName).head? with
  | none => rfl
  | some c => simpa [hd] using h

lemma Content.endsTagName_of_readTagName {s n rest : Text}
    (h : readTagName s = some (n, rest)) : endsTagName rest = true := by
  rw [readTagName.eq_def] at h
  split at h
  · split at h <;> cases h
    exact endsTagName_dropWhile _
  · split at h <;> cases h
    exact endsTagName_dropWhile _
  · cases h

/-- A line is a tag of the name that it begins with. -/
lemma Content.exists_read_tag_iff (l n : Text) :
    (∃ t, Content.read l = .tag t ∧ t.name = n) ↔ ∃ rest, readTagName l = some (n, rest) := by
  rw [Content.read]
  cases readTagName l with
  | none => simp
  | some r => simp [Prod.ext_iff]

/-- A name by which a tag can be read, without its `@`. -/
def IsTagName (name : Text) : Prop := Content.readTagName ('@' :: name) = some ('@' :: name, [])

instance : DecidablePred IsTagName := fun name =>
  inferInstanceAs (Decidable (Content.readTagName ('@' :: name) = some ('@' :: name, [])))

lemma continuesTagName_of_startsTag {c : Char} (h : (c.isAlpha || c == '_') = true) :
    continuesTagName c = true := by
  rw [Bool.or_eq_true, beq_iff_eq] at h
  rcases h with h | rfl
  · have hsmall : c.toNat < 0x80 := by
      have hcase : c.isUpper = true ∨ c.isLower = true := Bool.or_eq_true_iff.mp h
      rcases hcase with hupper | hlower
      · have hle : c.val.toNat ≤ 90 := (of_decide_eq_true hupper).2
        exact hle.trans_lt (by decide)
      · have hle : c.val.toNat ≤ 122 := of_decide_eq_true (Bool.and_eq_true_iff.mp hlower).2
        exact hle.trans_lt (by decide)
    simp [continuesTagName, Text.isWordChar, Text.isAlphabetic, hsmall, h]
  · decide +kernel

namespace IsTagName

variable {name : Text}

lemma continues (h : IsTagName name) : ∀ c ∈ name, continuesTagName c := by
  obtain ⟨mark, c, r, hmark, hc, -, hn, hr⟩ := Content.readTagName_cases h
  have hbare : name = mark.tail ++ c :: r := by
    rcases hmark with rfl | rfl <;> exact (List.cons.inj hn).2
  rw [hbare, List.forall_mem_append, List.forall_mem_cons]
  refine ⟨?_, continuesTagName_of_startsTag hc, hr⟩
  have hroot : continuesTagName '\\' = true := by decide +kernel
  rcases hmark with rfl | rfl
  · simp
  · simpa using hroot

/-- A line has the tag exactly if it begins with it. -/
lemma readTagName_iff (h : IsTagName name) {l : Text} :
    (∃ rest, Content.readTagName l = some ('@' :: name, rest)) ↔
      ∃ rest, l = '@' :: (name ++ rest) ∧ endsTagName rest := by
  constructor
  · rintro ⟨rest, hl⟩
    exact ⟨rest, Content.append_of_readTagName hl, Content.endsTagName_of_readTagName hl⟩
  · rintro ⟨rest, rfl, hends⟩
    exact ⟨rest, Content.readTagName_append h hends⟩

/-- However it is given, with its `@` or without. -/
lemma normalName_eq {given : Text} (h : IsTagName (given.dropWhile (· == '@'))) :
    Tag.normalName given = '@' :: given.dropWhile (· == '@') := by
  have hsolid : ∀ c ∈ given, isBlank c = false := by
    intro c hc
    rw [← List.takeWhile_append_dropWhile (p := (· == '@')) (l := given)] at hc
    rcases List.mem_append.mp hc with hc | hc
    · have hmark : c = '@' := by simpa using List.mem_takeWhile_imp hc
      rw [hmark]
      decide
    · rw [Bool.eq_false_iff]
      intro hb
      have := h.continues c hc
      rw [continuesTagName_of_isBlank hb] at this
      cases this
  rw [Tag.normalName]
  cases given with
  | nil => rfl
  | cons c r => rw [(Solid.of_forall hsolid (List.cons_ne_nil c r)).trim_eq]

end IsTagName

namespace DocSlot

variable {s : DocSlot} {name text : Text}

/-- The text of the comment spells the tag out. -/
def spellsOut (s : DocSlot) (name : Text) : Prop :=
  ∃ text, s.text = some text ∧ IsSpelledOut (name.dropWhile (· == '@')) text

lemma hasTag_iff : s.hasTag name = true ↔ s.spellsOut name ∨ s.tagsNamed name ≠ [] := by
  rw [hasTag, spellsOut, tagsNamed, comment?]
  cases s.text with
  | none => simp
  | some text => simp [IsSpelledOut.mentions_iff, DocComment.hasTag]

/-- Looking names up changes no tag name. -/
lemma map_name_tags (text : Text) (scope : Option NameScope) :
    (DocComment.read text scope).tree.tags.map (·.name) =
      ((DocTree.read text).entries.map Entry.written).filterMap (·.tag?.map (·.name)) := by
  change (List.filterMap (fun e : Entry => e.content.tag?)
    ((DocTree.read text).entries.map fun e =>
      { e with content := e.content.map (·.resolveIn scope) })).map (·.name) = _
  rw [List.map_filterMap, List.filterMap_map, List.filterMap_map]
  refine List.filterMap_congr fun e _ => ?_
  rw [Function.comp_apply, Function.comp_apply, Entry.written]
  cases e.content <;> rfl

/-- There is a tag of a name if one was read. -/
lemma exists_name_tags_iff (text : Text) (scope : Option NameScope) (n : Text) :
    (∃ t ∈ (DocComment.read text scope).tree.tags, t.name = n) ↔
      ∃ t, .tag t ∈ (DocTree.read text).entries.map Entry.written ∧ t.name = n := by
  rw [← List.mem_map, map_name_tags, List.mem_filterMap]
  constructor
  · rintro ⟨c, hmem, hname⟩
    cases c with
    | text u => cases hname
    | tag t => exact ⟨t, hmem, Option.some.inj hname⟩
  · rintro ⟨t, hmem, rfl⟩
    exact ⟨.tag t, hmem, rfl⟩

/-- The name of a tag stands at the beginning of a line, and what is in the line is in the text. -/
lemma exists_line_of_mem_tags {text : Text} {scope : Option NameScope} {t : Tag TypeRef}
    (ht : t ∈ (DocComment.read text scope).tree.tags) :
    ∃ l rest, Content.readTagName l = some (t.name, rest) ∧
      ∀ follows, IsConfined follows → Occurs follows l → Occurs follows text := by
  obtain ⟨u, hu, hname⟩ := (exists_name_tags_iff text scope t.name).mp ⟨t, ht, rfl⟩
  obtain ⟨lines, hread, hoccurs⟩ := DocTree.exists_lines_occurs (DocTree.isDocComment_of_tag hu)
  rw [hread] at hu
  obtain ⟨l, hl, hcontent⟩ := List.mem_map.mp hu
  obtain ⟨rest, hrest⟩ := (Content.exists_read_tag_iff l t.name).mp ⟨u, hcontent, hname⟩
  exact ⟨l, rest, hrest, fun follows hf h => (hoccurs follows hf).mpr ⟨l, hl, h⟩⟩

/-- The comment has the tag if one of its lines is read as one of this name, or as the annotation. -/
lemma tagsNamed_ne_nil_iff (h : s.text = some text) : s.tagsNamed name ≠ [] ↔
    ∃ t, .tag t ∈ (DocTree.read text).entries.map Entry.written ∧
      (t.name = Tag.normalName name ∨
        (DocComment.read text s.scope).isClassTag (Tag.normalName name) t.name = true) := by
  have hc : s.comment? = some (.read text s.scope) := by
    rw [comment?, h]
    rfl
  have hnames := exists_name_tags_iff text s.scope
  rw [tagsNamed, hc]
  simp only [DocComment.tagsNamed, ne_eq, List.filter_eq_nil_iff, not_forall, not_not,
    Bool.or_eq_true, beq_iff_eq]
  constructor
  · rintro ⟨t, ht, hcalled⟩
    obtain ⟨u, hu, hname⟩ := (hnames t.name).mp ⟨t, ht, rfl⟩
    exact ⟨u, hu, by rwa [hname]⟩
  · rintro ⟨u, hu, hcalled⟩
    obtain ⟨t, ht, hname⟩ := (hnames u.name).mpr ⟨u, hu, rfl⟩
    exact ⟨t, ht, by rwa [hname]⟩

/-- Of a text that is no doc comment no line is a tag. -/
lemma tagsNamed_eq_nil (h : s.text = some text) (hd : ¬DocTree.isDocComment (trim text)) :
    s.tagsNamed name = [] := by
  rw [← not_not (a := s.tagsNamed name = []), ← ne_eq, tagsNamed_ne_nil_iff h]
  rintro ⟨t, ht, -⟩
  exact hd (DocTree.isDocComment_of_tag ht)

/-- The tag is at the beginning of a line, or one of the lines is the annotation. -/
lemma tagsNamed_ne_nil_iff_lines (h : s.text = some text) {lines : List Text}
    (hlines : (DocTree.read text).entries.map Entry.written = lines.map Content.read)
    (hname : IsTagName (name.dropWhile (· == '@'))) :
    s.tagsNamed name ≠ [] ↔ ∃ l ∈ lines,
      (∃ rest, l = '@' :: (name.dropWhile (· == '@') ++ rest) ∧ endsTagName rest) ∨
      ∃ n rest, Content.readTagName l = some (n, rest) ∧
        (DocComment.read text s.scope).isClassTag (Tag.normalName name) n = true := by
  rw [tagsNamed_ne_nil_iff h, hlines]
  simp only [List.mem_map, hname.normalName_eq, ← hname.readTagName_iff]
  constructor
  · rintro ⟨t, ⟨l, hl, ht⟩, hcalled⟩
    obtain ⟨rest, hrest⟩ := (Content.exists_read_tag_iff l t.name).mp ⟨t, ht, rfl⟩
    rcases hcalled with hn | hclass
    · rw [hn] at hrest
      exact ⟨l, hl, .inl ⟨rest, hrest⟩⟩
    · exact ⟨l, hl, .inr ⟨t.name, rest, hrest, hclass⟩⟩
  · rintro ⟨l, hl, hrest | ⟨n, rest, hrest, hclass⟩⟩
    · obtain ⟨t, ht, hn⟩ := (Content.exists_read_tag_iff l _).mpr hrest
      exact ⟨t, ⟨l, hl, ht⟩, .inl hn⟩
    · obtain ⟨t, ht, hn⟩ := (Content.exists_read_tag_iff l n).mpr ⟨rest, hrest⟩
      exact ⟨t, ⟨l, hl, ht⟩, .inr (hn ▸ hclass)⟩

lemma firstTag_cases (s : DocSlot) (label name : Text) :
    (∃ t ts, s.tagsNamed name = t :: ts ∧ s.firstTag label name = .ok t) ∨
      (s.tagsNamed name = [] ∧ s.firstTag label name = .error (.noTag name label)) := by
  rw [firstTag]
  cases htags : s.tagsNamed name with
  | nil => exact .inr ⟨rfl, ite_self _⟩
  | cons t ts =>
    have htag : s.hasTag name = true := hasTag_iff.mpr (.inr (by simp [htags]))
    exact .inl ⟨t, ts, rfl, if_pos htag⟩

lemma isInstantiating_iff (o : InferenceOptions) (m : Method) :
    Strategy.isInstantiating o m = true ↔ o.isInstantiatingName m.name = true ∨
      (∃ k ∈ o.instantiationMarkers, m.doc.spellsOut k) ∨
      ∃ k ∈ o.instantiationMarkers, m.doc.tagsNamed k ≠ [] := by
  rw [Strategy.isInstantiating, Bool.or_eq_true, List.any_eq_true]
  simp only [hasTag_iff, and_or_left, exists_or]

/-- The check of the text and the tags that were read agree exactly if a tag that is spelled out is one
of the tags, and so it is for the methods that markers pick. The first tag is found exactly if there
is one. In a doc comment a tag is spelled out where one of the lines has it anywhere, and is one of
the tags where a line begins with it, without a backslash, or is the annotation. -/
theorem hasTag_iff_tagsNamed_iff (s : DocSlot) (label name : Text) :
    let bare := name.dropWhile (· == '@')
    (s.tagsNamed name ≠ [] → s.hasTag name = true) ∧
      ((s.hasTag name = true ↔ s.tagsNamed name ≠ []) ↔
        (s.spellsOut name → s.tagsNamed name ≠ [])) ∧
      ((∃ t, s.firstTag label name = .ok t) ↔ s.tagsNamed name ≠ []) ∧
      (s.tagsNamed name = [] → s.firstTag label name = .error (.noTag name label)) ∧
      (∀ text, s.text = some text → ¬DocTree.isDocComment (trim text) → s.tagsNamed name = []) ∧
      (∀ text, s.text = some text → DocTree.isDocComment (trim text) → IsTagName bare →
        ∃ lines : List Text, (DocTree.read text).entries.map Entry.written =
            lines.map Content.read ∧
          (s.spellsOut name ↔ ∃ l ∈ lines, IsSpelledOut bare l) ∧
          (s.tagsNamed name ≠ [] ↔ ∃ l ∈ lines,
            (∃ rest, l = '@' :: (bare ++ rest) ∧ endsTagName rest) ∨
            ∃ n rest, Content.readTagName l = some (n, rest) ∧
              (DocComment.read text s.scope).isClassTag (Tag.normalName name) n = true)) ∧
      ∀ (o : InferenceOptions) (m : Method),
        let named := o.isInstantiatingName m.name = true
        let carried := ∃ k ∈ o.instantiationMarkers, m.doc.tagsNamed k ≠ []
        (Strategy.isInstantiating o m = true ↔ named ∨ carried) ↔
          (named ∨ ((∃ k ∈ o.instantiationMarkers, m.doc.spellsOut k) → carried)) := by
  intro bare
  have hfirst := firstTag_cases s label name
  refine ⟨fun h => hasTag_iff.mpr (.inr h), ?_, ?_, ?_, fun text => tagsNamed_eq_nil, ?_, ?_⟩
  · rw [hasTag_iff, or_iff_right_iff_imp]
  · rcases hfirst with ⟨t, ts, htags, hok⟩ | ⟨htags, herror⟩
    · simp [htags, hok]
    · simp [htags, herror]
  · intro h
    rcases hfirst with ⟨t, ts, htags, -⟩ | ⟨-, herror⟩
    · rw [h] at htags
      cases htags
    · exact herror
  · intro text htext hd hname
    obtain ⟨lines, hlines, hspelled⟩ := DocTree.exists_lines hd
    refine ⟨lines, hlines, ?_, tagsNamed_ne_nil_iff_lines htext hlines hname⟩
    rw [← hspelled bare hname.continues, spellsOut, htext]
    simp [bare]
  · intro o m named carried
    rw [isInstantiating_iff]
    by_cases hn : named
    · exact iff_of_true (iff_of_true (.inl hn) (.inl hn)) (.inl hn)
    · rw [or_iff_right hn, or_iff_right hn, or_iff_right hn, or_iff_right_iff_imp]

/-- A tag on a line of its own, behind a line that mentions it, and a tag in a text that is no doc
comment. -/
theorem hasTag_mention_and_tag :
    let text : Text := "/**\n * Mail team@required.org\n *\n * @required by the container\n */"
    let s : DocSlot := ⟨some text, none⟩
    let note : DocSlot := ⟨some "// @required", none⟩
    (∃ lines : List Text,
      (DocTree.read text).entries.map Entry.written = lines.map Content.read ∧
      ∃ l ∈ lines, IsSpelledOut "required" l) ∧
      (s.hasTag "required" = true ↔ s.tagsNamed "required" ≠ []) ∧
      note.hasTag "@required" = true ∧ note.tagsNamed "@required" = [] := by
  intro text s note
  obtain ⟨-, hagree, -, -, -, hlines, -⟩ :=
    hasTag_iff_tagsNamed_iff s "ClassMethod setMailer()" "required"
  obtain ⟨-, -, -, -, hnote, -, -⟩ :=
    hasTag_iff_tagsNamed_iff note "ClassMethod setMailer()" "@required"
  have htags : s.tagsNamed "required" ≠ [] := by decide +kernel
  have hname : IsTagName ("required".toList.dropWhile (· == '@')) := by
    rw [IsTagName]
    decide +kernel
  obtain ⟨lines, hread, hspelled, -⟩ := hlines text rfl (by decide +kernel) hname
  have hmention : s.spellsOut "required" :=
    ⟨text, rfl, IsSpelledOut.mentions_iff.mp (by decide +kernel)⟩
  refine ⟨⟨lines, hread, hspelled.mp hmention⟩, hagree.mpr fun _ => htags, by decide +kernel, ?_⟩
  exact hnote _ rfl (by decide +kernel)

/-- An address in the description of a method counts as the tag, and the method is taken for one that
sets up an instance. -/
theorem hasTag_mention_only :
    let m : Method := { name := "m", doc := ⟨some "/** Mail team@required.org */", none⟩ }
    m.doc.hasTag "required" = true ∧ m.doc.tagsNamed "required" = [] ∧
      m.doc.firstTag m.label "required" = .error (.noTag "required" m.label) ∧
      InferenceOptions.isInstantiatingName default m.name = false ∧
      Strategy.isInstantiating default m = true := by
  decide +kernel

end DocSlot
end DocTypes
