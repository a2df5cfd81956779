import DocTypes.Proofs.Doc.ChangeVar
import DocTypes.Proofs.Doc.Mentions
import DocTypes.Proofs.Doc.ParamTags
import DocTypes.Proofs.Doc.Removal
import DocTypes.Proofs.Doc.Renaming

/-!
Edits made a second time. What is printed after an edit is read as a comment in which the edit finds
nothing to do, however the lines were laid out before.
-/
namespace DocTypes
open Text

/-! Underscores that became backslashes. -/

namespace TypeExpr

/-- The name with namespaces for its underscores. -/
def namespaced (name : Text) : Text := name.map fun c => if c == '_' then '\\' else c

lemma notMem_namespaced (name : Text) : '_' ∉ namespaced name := by
  intro h
  obtain ⟨c, -, hc⟩ := List.mem_map.mp h
  split at hc
  · exact absurd hc (by decide)
  · simp_all

lemma namespaced_of_notMem {name : Text} (h : '_' ∉ name) : namespaced name = name := by
  have hsame : ∀ c ∈ name, (if c == '_' then '\\' else c) = c := fun c hc =>
    if_neg fun heq => h (by simpa using beq_iff_eq.mp heq ▸ hc)
  exact (List.map_congr_left hsame).trans (List.map_id _)

/-- Behind a backslash this is a name, or its first part does not begin with a letter. -/
lemma isWord_rooted_namespaced {name : Text} (h : isName name) :
    isWord ('\\' :: namespaced (Name.unrooted name)) := by
  have hspelled : ∀ n, isSpelled n → isWord ('\\' :: namespaced n) := by
    intro n hn
    cases n with
    | nil => simp [isSpelled] at hn
    | cons c r =>
      have hcont : ∀ d ∈ namespaced (c :: r), continuesName d = true := by
        rw [namespaced, List.forall_mem_map]
        intro d hd
        split
        · decide
        · exact continuesName_of_isSpelled hn d hd
      rw [namespaced, List.map_cons] at hcont ⊢
      generalize (if c == '_' then '\\' else c) = d at hcont ⊢
      cases hd : startsName d with
      | true =>
        refine isWord_of_isName ?_
        simp only [isName, Bool.or_eq_true]
        exact .inr (isSpelled_cons.mpr ⟨hd, fun e he => hcont e (List.mem_cons_of_mem _ he)⟩)
      | false =>
        have hletterless := isLetterless_cons.mpr ⟨hcont, hd⟩
        rw [isWord, isStray, if_pos rfl, hletterless, Bool.or_true, Bool.or_true]
  rcases isName_cases h with rfl | ⟨s, rfl, hs⟩ | hs
  · decide
  · have hroot : Name.unrooted ('\\' :: s) = s :=
      (Name.unrooted_backslash s).trans (Name.unrooted_of_isSpelled hs)
    exact hroot.symm ▸ hspelled s hs
  · exact (Name.unrooted_of_isSpelled hs).symm ▸ hspelled name hs

/-- A name that begins with a backslash begins with no second one. -/
lemma unrooted_of_isName_rooted {s : Text} (h : isName ('\\' :: s)) :
    Name.unrooted ('\\' :: s) = s := by
  rcases isName_cases h with hthis | ⟨s', hs', hs⟩ | hs
  · simp at hthis
  · obtain rfl := (List.cons.inj hs').2
    exact (Name.unrooted_backslash s).trans (Name.unrooted_of_isSpelled hs)
  · exact absurd rfl (startsName_ne (isSpelled_cons.mp hs).1).2.1

end TypeExpr

namespace TypeRef

variable {start : Text} {excluded : List Text}

/-- What a name becomes. -/
def parted (start : Text) (excluded : List Text) (r : TypeRef) : TypeRef :=
  let name := Name.unrooted r.written
  if startsWith start name && !excluded.contains name then
    .ofWritten ('\\' :: TypeExpr.namespaced name)
  else r

/-- A name that got namespaces has no underscore left, and any other is left alone again. -/
lemma written_parted_parted (r : TypeRef) {r' : TypeRef}
    (hr' : r'.written = (r.parted start excluded).written) (hn : TypeExpr.isName r'.written) :
    (r'.parted start excluded).written = r'.written := by
  rw [parted] at hr'
  split at hr'
  · rw [written_ofWritten] at hr'
    rw [hr'] at hn
    have hroot := TypeExpr.unrooted_of_isName_rooted hn
    rw [parted]
    split
    · rw [written_ofWritten, hr', hroot,
        TypeExpr.namespaced_of_notMem (TypeExpr.notMem_namespaced _)]
    · rfl
  · rename_i hleft
    rw [parted, hr', if_neg hleft, hr']

end TypeRef

/-! Tags of another name. -/

namespace Tag

/-- The value of a tag on a line has no white space at its ends, and no line break. -/
lemma solid_value_of_read {l : Text} (hl : '\n' ∉ l) {t : Tag Text} (h : Content.read l = .tag t) :
    (t.value.render = [] ∨ Solid t.value.render) ∧ '\n' ∉ t.value.render := by
  obtain ⟨rest, hname, hvalue⟩ := Content.exists_of_read_tag h
  have hrest : '\n' ∉ rest := fun hc =>
    hl (Content.append_of_readTagName hname ▸ List.mem_append_right _ hc)
  have htrim : (trim rest = [] ∨ Solid (trim rest)) ∧ '\n' ∉ trim rest :=
    ⟨TypedValue.eq_nil_or_solid_trim rest, fun hc => hrest (mem_of_mem_trim hc)⟩
  split at hvalue
  · obtain ⟨v, -, hread, -⟩ | hread := TypedValue.read_cases rest
    · rw [hvalue, hread]
      obtain ⟨⟨hproper, hnames⟩, hv⟩ := TypedValue.isTrim_of_read hread hrest
      obtain ⟨hsolid, hfeed⟩ := TypedValue.solid_render hv
        (TypeExpr.solid_render_of_solid hproper fun n hn =>
          TypeExpr.solid_of_isWord (TypeExpr.isWord_of_isName (hnames n hn)))
        (TypeExpr.notMem_render (by decide) fun n hn =>
          TypeExpr.notMem_of_isName (by decide) (by decide) (hnames n hn))
      exact ⟨.inr hsolid, hfeed⟩
    · rw [hvalue, hread]
      exact htrim
  · rw [hvalue]
    exact htrim

/-- A tag that was read, printed under another name and read again. -/
lemma exists_read_render_renamed {l : Text} (hl : '\n' ∉ l) {t : Tag Text}
    (h : Content.read l = .tag t) {name s rest : Text}
    (hname : Content.readTagName s = some (name, rest)) :
    let u : Tag Text := ⟨name, t.value⟩
    '\n' ∉ u.render ∧ Solid u.render ∧ ∃ value, Content.read u.render = .tag ⟨name, value⟩ := by
  intro u
  have hsolid := Content.solid_of_readTagName hname
  obtain ⟨hvalue, hfeed⟩ := solid_value_of_read hl h
  refine ⟨Tag.notMem_render (by decide) (Content.notMem_of_readTagName hname (by decide)) hfeed, ?_, ?_⟩
  · rcases hvalue with hnil | hv
    · have hrender : u.render = name := by
        rw [render, hnil]
      rwa [hrender]
    · exact solid_render hsolid hv
  · obtain ⟨b, -, -, hrender, hends⟩ := u.exists_render_eq
    rw [hrender, Content.read, Content.readTagName_append hname hends]
    exact ⟨_, rfl⟩

end Tag

namespace Entry

variable {e : Entry} {old new : Text}

/-- An entry that was read from a line, under another tag name. -/
lemma exists_reread_renamed {l : Text} (hl : '\n' ∉ l) (hread : e.written = .read l)
    {t : Tag TypeRef} (ht : e.content = .tag t) {s rest : Text}
    (hnew : Content.readTagName s = some (new, rest)) :
    let e' : Entry := { e with content := .tag { t with name := new } }
    e'.IsOneLine ∧ (e'.isUntouched = false → ∃ value, e'.reread = .tag ⟨new, value⟩) := by
  intro e'
  have htag : Content.read l = .tag (t.map TypeRef.written) := by
    rw [← hread, written, ht]
    rfl
  obtain ⟨hfeed, hsolid, hagain⟩ := Tag.exists_read_render_renamed hl htag hnew
  have hrender : e'.written.render = Tag.render ⟨new, (t.map TypeRef.written).value⟩ := rfl
  refine ⟨⟨hrender ▸ hfeed, hrender ▸ hsolid.trim_eq, fun hnil =>
    absurd (hrender.symm.trans hnil) hsolid.ne_nil⟩, fun hu => ?_⟩
  rw [reread, hu, if_neg (by decide), hrender]
  exact hagain

/-- The entry is not what was read any more. -/
lemma isUntouched_renamed {o : Origin} (ho : e.origin = some o) (hc : o.content = e.written)
    {t : Tag TypeRef} (ht : e.content = .tag t) (hne : new ≠ t.name) :
    isUntouched { e with content := .tag { t with name := new } } = false := by
  rw [Bool.eq_false_iff]
  intro hu
  obtain ⟨o', ho', hc'⟩ := isUntouched_iff.mp hu
  obtain rfl : o = o' := Option.some.inj (ho.symm.trans ho')
  rw [hc, written, ht] at hc'
  exact hne (Tag.mk.inj (Content.tag.inj hc')).1.symm

end Entry

namespace DocTree

variable {old new : Text} {d : DocTree}

/-- Another name for the tags of one name. -/
def renamed (old new : Text) : DocTree → DocTree :=
  mapTags fun t => if t.name = old then { t with name := new } else t

lemma renamed_eq_self (h : ∀ e ∈ d.entries, e.isTagNamed old = false) : d.renamed old new = d := by
  refine mapTags_eq_self fun t ht => if_neg fun hname => ?_
  obtain ⟨e, he, hc⟩ := mem_tags.mp ht
  have hnamed := h e he
  simp [Entry.isTagNamed, hc, hname] at hnamed

/-- An entry is as it was and has another name, or it is a tag that was renamed. -/
lemma mem_renamed_cases {e' : Entry} (h : e' ∈ (d.renamed old new).entries) :
    (e' ∈ d.entries ∧ e'.isTagNamed old = false) ∨
      ∃ e ∈ d.entries, ∃ t, e.content = .tag t ∧ t.name = old ∧
        e' = { e with content := .tag { t with name := new } } := by
  obtain ⟨e, he, rfl⟩ := List.mem_map.mp h
  obtain ⟨content, origin⟩ := e
  cases content with
  | text s => exact .inl ⟨he, rfl⟩
  | tag t =>
    by_cases hname : t.name = old
    · exact .inr ⟨_, he, t, rfl, hname, by simp [hname]⟩
    · refine .inl ⟨by simpa [hname] using he, ?_⟩
      simp [Entry.isTagNamed, hname]

lemma mem_renamed {e : Entry} (he : e ∈ d.entries) {t : Tag TypeRef} (ht : e.content = .tag t)
    (hname : t.name = old) :
    { e with content := .tag { t with name := new } } ∈ (d.renamed old new).entries := by
  refine List.mem_map.mpr ⟨e, he, ?_⟩
  simp [ht, hname]

section
variable (hne : new ≠ old)
include hne

/-- A tree that was read is unchanged under another name for a tag only where there is none. -/
lemma isTagNamed_of_isUnchanged_renamed (hd : d.isUnchanged)
    (hu : (d.renamed old new).isUnchanged) : ∀ e ∈ d.entries, e.isTagNamed old = false := by
  intro e he
  cases hc : e.content with
  | text s => rw [Entry.isTagNamed, hc]
  | tag t =>
    rw [Entry.isTagNamed, hc]
    dsimp only
    rw [beq_eq_false_iff_ne]
    intro hname
    obtain ⟨i, hi⟩ := List.mem_iff_getElem?.mp he
    obtain ⟨o, ho, -, hoc⟩ := (isUnchanged_iff.mp hd).2 i e hi
    have hother : new ≠ t.name := hname ▸ hne
    have htouched := Entry.isUntouched_renamed ho hoc hc hother
    simp [isUnchanged_of_touched (mem_renamed he hc hname) htouched] at hu

/-- Every entry is as it was read or one line, and is read as something else than a tag of the old
name. -/
lemma reread_renamed (hk : ∀ e ∈ d.entries, e.IsKept d.frame) {s rest : Text}
    (hnew : Content.readTagName s = some (new, rest)) : ∀ e ∈ (d.renamed old new).entries,
      (e.IsKept d.frame ∨ e.isUntouched = false ∧ e.IsOneLine) ∧
        e.reread.tag?.any (·.name == old) = false := by
  intro e' he'
  obtain ⟨hmem, hother⟩ | ⟨e, he, t, ht, hname, rfl⟩ := mem_renamed_cases he'
  · refine ⟨.inl (hk e' hmem), ?_⟩
    rwa [Entry.reread, if_pos (hk e' hmem).isUntouched, ← Entry.isTagNamed_eq]
  · obtain ⟨o, ho, hc, -⟩ := hk e he
    obtain ⟨l, hl, hread⟩ := (hk e he).exists_line
    have hother : new ≠ t.name := hname ▸ hne
    have hu := Entry.isUntouched_renamed ho hc ht hother
    obtain ⟨hline, hagain⟩ := Entry.exists_reread_renamed hl hread ht hnew
    obtain ⟨value, hvalue⟩ := hagain hu
    refine ⟨.inr ⟨hu, hline⟩, ?_⟩
    rw [hvalue]
    simpa [Content.tag?] using hne

/-- After the tags of a name got another one, none is read under the old name. -/
theorem isTagNamed_read_print_renamed (text : Text) (scope : Option NameScope) {s rest : Text}
    (hnew : Content.readTagName s = some (new, rest)) :
    ∀ e ∈ (read ((((read text).resolveIn scope).renamed old new).print text)).entries,
      e.isTagNamed old = false := by
  have htree : ((read text).resolveIn scope).isUnchanged :=
    isUnchanged_resolveIn scope (isUnchanged_read text)
  have hwritten := map_written_resolveIn scope (read text)
  -- Whether an entry has the name shows in what it was read as.
  suffices h : ∀ c ∈ (read ((((read text).resolveIn scope).renamed old new).print text)).entries.map
      Entry.written, c.tag?.any (·.name == old) = false by
    intro e he
    rw [Entry.isTagNamed_eq]
    exact h _ (List.mem_map_of_mem he)
  cases hp : isDocComment (trim ((((read text).resolveIn scope).renamed old new).print text)) with
  | false => simp [written_read_of_not_isDocComment hp, Content.tag?]
  | true =>
    cases hu : (((read text).resolveIn scope).renamed old new).isUnchanged with
    | true =>
      rw [print, if_pos hu, ← hwritten, List.forall_mem_map]
      intro e he
      rw [← Entry.isTagNamed_eq]
      exact isTagNamed_of_isUnchanged_renamed hne htree hu e he
    | false =>
      obtain ⟨e, he, t, ht, hname⟩ : ∃ e ∈ ((read text).resolveIn scope).entries, ∃ t,
          e.content = .tag t ∧ t.name = old := by
        by_contra hnone
        rw [renamed_eq_self, htree] at hu
        · cases hu
        · intro e he
          cases hc : e.content with
          | text s => rw [Entry.isTagNamed, hc]
          | tag t => simpa [Entry.isTagNamed, hc] using fun hname => hnone ⟨e, he, t, hc, hname⟩
      have hd : isDocComment (trim text) := isDocComment_of_tag (t := t.map (·.written)) <| by
        rw [← hwritten, List.mem_map]
        exact ⟨e, he, by rw [Entry.written, ht, Content.map]⟩
      have hlines := reread_renamed hne (DocSlot.isKept_mapNames (TypeRef.written_resolveIn scope)
        (isKept_read hd)) hnew
      rw [written_read_print_of_isClear (d := ((read text).resolveIn scope).renamed old new)
        (isClear_read hd) hu (isBlank_of_tag (mem_renamed he ht hname) rfl) hp
        fun e he => (hlines e he).1, List.forall_mem_map]
      exact fun e he => (hlines e he).2

end

end DocTree

namespace DocSlot

variable {s : DocSlot}

lemma removeLines_again {p : Content TypeRef → Bool} (hp : ∀ s, p (.text s) = false)
    (s : DocSlot) : (s.removeLines p).1.removeLines p = ((s.removeLines p).1, false) :=
  (isReported_editTree _ _).eq_of_fst_eq (removeLines_self hp s)

theorem removeTag_removeTag (name : Text) (s : DocSlot) :
    (s.removeTag name).1.removeTag name = ((s.removeTag name).1, false) := by
  rw [removeTag_eq, removeTag_eq]
  exact removeLines_again (fun _ => rfl) s

theorem removeParam_removeParam (name : Text) (s : DocSlot) :
    (s.removeParam name).1.removeParam name = ((s.removeParam name).1, false) := by
  rw [removeParam_eq rfl, removeParam_eq rfl]
  exact removeLines_again (fun _ => rfl) s

/-- The order in which tags are removed does not matter. -/
theorem removeTag_comm (a b : Text) (s : DocSlot) :
    ((s.removeTag a).1.removeTag b).1 = ((s.removeTag b).1.removeTag a).1 := by
  simp only [removeTag_eq]
  exact removeLines_comm (fun _ => rfl) (fun _ => rfl) s

theorem underscoresToNamespaces_again (start : Text) (excluded : List Text) (s : DocSlot) :
    let s' := (s.underscoresToNamespaces start excluded).1
    s'.underscoresToNamespaces start excluded = (s', false) := by
  obtain ⟨_ | text, scope⟩ := s
  · rfl
  refine editTree_mapNames_again (g := TypeRef.parted start excluded) (fun r hr => ?_)
    fun r _ hn => ?_
  · have hname := (DocTree.eq_resolveIn_of_mem_names hr).1
    rw [TypeRef.parted]
    split
    · exact TypeExpr.isWord_rooted_namespaced hname
    · exact TypeExpr.isWord_of_isName hname
  · have hsame : ((TypeRef.ofWritten (r.parted start excluded).written).resolveIn scope).written =
        (r.parted start excluded).written := by
      rw [TypeRef.written_resolveIn, TypeRef.written_ofWritten]
    rw [TypeRef.written_parted_parted r hsame (hsame.symm ▸ hn), hsame]

theorem renameTag_renameTag {new : Text} (hnew : IsTagName ((trim new).dropWhile (· == '@')))
    (old : Text) (s : DocSlot) :
    (s.renameTag old new).1.renameTag old new = ((s.renameTag old new).1, false) := by
  refine editTree_editTree (f := DocTree.renamed (Tag.normalName old) (Tag.normalName new))
    fun text _ _ => ?_
  have hunchanged : ∀ text, ((DocTree.read text).resolveIn s.scope).isUnchanged := fun text =>
    DocTree.isUnchanged_resolveIn s.scope (DocTree.isUnchanged_read text)
  by_cases hne : Tag.normalName new = Tag.normalName old
  · -- The name is given to tags that have it.
    rw [hne, DocTree.renamed, DocTree.mapTags_eq_self]
    · exact hunchanged _
    · intro t _
      split
      · rename_i hname
        rw [← hname]
      · rfl
  · rw [DocTree.renamed_eq_self]
    · exact hunchanged _
    · have hgone := DocTree.isTagNamed_read_print_renamed hne text s.scope hnew
      intro e he
      have hmem := List.mem_map_of_mem (f := Entry.written) he
      rw [DocTree.map_written_resolveIn, List.mem_map] at hmem
      obtain ⟨e₀, he₀, hwritten⟩ := hmem
      rw [Entry.isTagNamed_eq, ← hwritten, ← Entry.isTagNamed_eq]
      exact hgone e₀ he₀

theorem addReturn_addReturn (hs : s.IsTidy) {type : Text} (ht : IsLine type) :
    (s.addReturn type).1.addReturn type = ((s.addReturn type).1, false) := by
  by_cases hidle : (s.returnInfo?.map (·.full)) = some [Name.unrooted type]
  · have hsame : s.addReturn type = (s, false) := if_pos hidle
    rw [hsame, hsame]
  · have hset : s.addReturn type = s.setTag (typedTag "@return" (TypeName.plain type).inTag) :=
      if_neg hidle
    have hline : IsLine (TypeName.plain type).inTag := TypeName.isLine_inTag ht
    rw [hset, addReturn]
    split
    · rfl
    · exact setTag_setTag hs (isSteady_typedTag Tag.isTypeTag_return (.inr hline))

/-- Removing the tags of a name or of a parameter, turning underscores into namespaces, and giving tags
a name that is one change nothing the second time, whatever the comment; nor does setting a type of one
line as that of `@return`, where there is no comment or one that begins with its mark. Of two names, the
tags of either may be removed first. -/
theorem edits_again_and_removals_commute :
    (∀ (s : DocSlot) (name : Text),
      (s.removeTag name).1.removeTag name = ((s.removeTag name).1, false)) ∧
    (∀ (s : DocSlot) (name : Text),
      (s.removeParam name).1.removeParam name = ((s.removeParam name).1, false)) ∧
    (∀ (s : DocSlot) (start : Text) (excluded : List Text),
      let s' := (s.underscoresToNamespaces start excluded).1
      s'.underscoresToNamespaces start excluded = (s', false)) ∧
    (∀ (s : DocSlot) (old new : Text), IsTagName ((trim new).dropWhile (· == '@')) →
      (s.renameTag old new).1.renameTag old new = ((s.renameTag old new).1, false)) ∧
    (∀ (s : DocSlot) (type : Text), s.IsTidy → IsLine type →
      (s.addReturn type).1.addReturn type = ((s.addReturn type).1, false)) ∧
    ∀ (s : DocSlot) (a b : Text),
      ((s.removeTag a).1.removeTag b).1 = ((s.removeTag b).1.removeTag a).1 :=
  ⟨fun s name => removeTag_removeTag name s, fun s name => removeParam_removeParam name s,
    fun s start excluded => underscoresToNamespaces_again start excluded s,
    fun s old _ hnew => renameTag_renameTag hnew old s, fun _ _ hs ht => addReturn_addReturn hs ht,
    fun s a b => removeTag_comm a b s⟩

/-- Both kinds of line ends, content on the first and on the last line, a name that cannot be read any
more without its underscore, and a type that cannot be read behind a backslash. -/
theorem edits_again_and_removals_commute_mixed_ends :
    let s : DocSlot := ⟨some "/** Note.\r\n  @inject ( a )\n*@param B_C $p\n * @var _A */", none⟩
    let renamed := (s.renameTag "inject" "\\DI\\Inject").1
    let parted := (s.underscoresToNamespaces [] []).1
    let returning := (s.addReturn "?A").1
    (renamed.text = some ("/**\r\n * Note.\r\n * @\\DI\\Inject( a )\r\n*@param B_C $p\r\n" ++
        " * @var _A\r\n */") ∧
      renamed.renameTag "inject" "\\DI\\Inject" = (renamed, false)) ∧
    (parted.text = some ("/**\r\n * Note.\r\n  @inject ( a )\r\n * @param \\B\\C $p\r\n" ++
        " * @var \\\\A\r\n */") ∧
      parted.underscoresToNamespaces [] [] = (parted, false)) ∧
    (returning.text = some ("/**\r\n * Note.\r\n  @inject ( a )\r\n*@param B_C $p\r\n" ++
        " * @var _A\r\n * @return \\?A\r\n */") ∧
      returning.addReturn "?A" = (returning, false)) ∧
    ((s.removeParam "p").1.removeParam "p" = ((s.removeParam "p").1, false) ∧
      (s.removeTag "@var").1.removeTag "@var" = ((s.removeTag "@var").1, false) ∧
      ((s.removeTag "inject").1.removeTag "@var").1 =
        ((s.removeTag "@var").1.removeTag "inject").1) := by
  intro s renamed parted returning
  obtain ⟨htag, hparam, hparted, hrenamed, hreturn, hcomm⟩ := edits_again_and_removals_commute
  have hname : IsTagName ((trim "\\DI\\Inject").dropWhile (· == '@')) := by decide +kernel
  have htidy : s.IsTidy := by decide +kernel
  have hline : IsLine "?A" := isLine_of_notMem (by decide) (by decide)
  exact ⟨⟨by decide +kernel, hrenamed s _ _ hname⟩, ⟨by decide +kernel, hparted s _ _⟩,
    ⟨by decide +kernel, hreturn s _ htidy hline⟩, hparam s _, htag s _, hcomm s _ _⟩

end DocSlot
end DocTypes
