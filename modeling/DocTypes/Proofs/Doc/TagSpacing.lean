import DocTypes.Proofs.Doc.LineTexts
import DocTypes.Proofs.Doc.Retyping
import DocTypes.Proofs.TypeExpr.OtherNames

/-!
The white space behind the name of a tag whose type was changed. A type that opens with a parenthesis
is printed like the arguments of an annotation, right behind the name.
-/
namespace DocTypes
open Text

/-- White space follows the name at the beginning of the line. -/
def isSpaced (name l : Text) : Bool := ((after? name l).bind (·.head?)).any isBlank

lemma isSpaced_append (name r : Text) : isSpaced name (name ++ r) = r.head?.any isBlank := by
  have hafter : after? name (name ++ r) = some r := after?_eq_some_iff.mpr rfl
  rw [isSpaced, hafter, Option.bind_some]

lemma head?_append_iff {s t : Text} {c : Char} (ht : t.head? ≠ some c) :
    (s ++ t).head? = some c ↔ s.head? = some c := by
  cases s with
  | nil => simp [ht]
  | cons d s => rfl

namespace TypeExpr

variable {ν μ : Type}

mutual

/-- The first thing printed is a parenthesis: around an element type that needs it, or around the first
member. -/
def opensParenthesis : TypeExpr ν → Bool
  | .name _ => false
  | .nullable _ => false
  | .array t => t.isLoose || opensParenthesis t
  | .union ts => firstOpensParenthesis ts
  | .intersection ts => firstOpensParenthesis ts
  | .generic _ _ => false

def firstOpensParenthesis : List (TypeExpr ν) → Bool
  | [] => false
  | t :: _ => t.isCompound || opensParenthesis t

end

/-- Other names change nothing in this. -/
@[simp] lemma opensParenthesis_map (f : ν → μ) (t : TypeExpr ν) :
    (t.map f).opensParenthesis = t.opensParenthesis := by
  have hfirst : ∀ ts : List (TypeExpr ν),
      (∀ t ∈ ts, (t.map f).opensParenthesis = t.opensParenthesis) →
      firstOpensParenthesis (mapList f ts) = firstOpensParenthesis ts := by
    intro ts h
    cases ts with
    | nil => rfl
    | cons t ts => simp [mapList, firstOpensParenthesis, h t]
  induction t with
  | name n => rfl
  | nullable t ih => rfl
  | array t ih => simp [map, opensParenthesis, ih]
  | union ts ih => exact hfirst ts ih
  | intersection ts ih => exact hfirst ts ih
  | generic b ts ih => rfl

lemma head?_parenthesizedIf_iff (b : Bool) (s : Text) :
    (parenthesizedIf b s).head? = some '(' ↔ b = true ∨ s.head? = some '(' := by
  cases b <;> simp [parenthesizedIf]

/-- A type is printed with a parenthesis first exactly if its shape says so. -/
lemma head?_render_iff {t : TypeExpr Text} (h : ∀ n ∈ t.names, n.head? ≠ some '(') :
    t.render.head? = some '(' ↔ t.opensParenthesis = true := by
  have hjoin : ∀ (mark : Char) (ts : List (TypeExpr Text)), mark ≠ '(' →
      (∀ t ∈ ts, t.render.head? = some '(' ↔ t.opensParenthesis = true) →
      ((join [mark] (renderMembers ts)).head? = some '(' ↔ firstOpensParenthesis ts = true) := by
    intro mark ts hmark hts
    cases ts with
    | nil => simp [renderMembers, join, firstOpensParenthesis]
    | cons t ts =>
      have hbehind : ((renderMembers ts).flatMap ([mark] ++ ·)).head? ≠ some '(' := by
        cases ts <;> simp [renderMembers, hmark]
      rw [renderMembers, join_cons, head?_append_iff hbehind, head?_parenthesizedIf_iff,
        hts t (by simp), firstOpensParenthesis, Bool.or_eq_true]
  induction t with
  | name n => simpa [render, opensParenthesis] using h n (by simp [names])
  | nullable t ih => simp [render, opensParenthesis]
  | array t ih =>
    have hitem : t.render.head? = some '(' ↔ t.opensParenthesis = true := ih h
    rw [render, head?_append_iff (by decide), head?_parenthesizedIf_iff, hitem, opensParenthesis,
      Bool.or_eq_true]
  | union ts ih =>
    simp only [names, namesList_eq, List.mem_flatMap] at h
    exact hjoin '|' ts (by decide) fun t ht => ih t ht fun n hn => h n ⟨t, ht, hn⟩
  | intersection ts ih =>
    simp only [names, namesList_eq, List.mem_flatMap] at h
    exact hjoin '&' ts (by decide) fun t ht => ih t ht fun n hn => h n ⟨t, ht, hn⟩
  | generic b ts ih =>
    have hargs : ('<' :: (join ", " (renderArgs ts) ++ ">")).head? ≠ some '(' := by simp
    rw [render, List.append_assoc, List.cons_append, head?_append_iff hargs]
    simpa [opensParenthesis] using h b (by simp [names])

end TypeExpr

lemma TypedValue.head?_render_iff (v : TypedValue Text) :
    v.render.head? = some '(' ↔ v.type.render.head? = some '(' := by
  rw [render, List.append_assoc]
  refine head?_append_iff ?_
  cases v.variableName <;> cases v.description <;> simp

/-- White space is printed behind the name unless the value opens with a parenthesis. -/
lemma Tag.isSpaced_render_iff {t : Tag Text} (hne : t.value.render ≠ []) :
    isSpaced t.name t.render = true ↔ t.value.render.head? ≠ some '(' := by
  have hparenthesis : Text.isBlank '(' = false := by decide
  have hblank : Text.isBlank ' ' = true := by decide
  rw [render]
  split
  · contradiction
  · rename_i r h
    simp [isSpaced_append, h, hparenthesis]
  · rename_i c r hc h
    have hfirst : c ≠ '(' := hc
    simp [isSpaced_append, h, hblank, hfirst]

/-- Neither white space nor a parenthesis stands in the name. -/
structure TypeExpr.IsUnbroken (n : Text) : Prop where
  ne_nil : n ≠ []
  solid : ∀ c ∈ n, isBlank c = false
  open_notMem : '(' ∉ n

namespace TypeExpr.IsUnbroken

variable {n : Text}

lemma isSolid (h : IsUnbroken n) : Solid n ∧ '\n' ∉ n :=
  ⟨.of_forall h.solid h.ne_nil, fun hmem => absurd (h.solid _ hmem) (by decide)⟩

lemma head?_ne (h : IsUnbroken n) : n.head? ≠ some '(' := fun heq =>
  h.open_notMem (List.mem_of_head? heq)

/-- Every name that was read, and every short one. -/
lemma of_isWord (h : isWord n) : IsUnbroken n := by
  refine ⟨(solid_of_isWord h).ne_nil, fun c hc => ?_, notMem_of_isWord (by decide +kernel) (by decide) h⟩
  rw [Bool.eq_false_iff]
  intro hblank
  have hthis : "$this".toList.all (!isBlank ·) := by decide
  refine notMem_of_isWord (continuesName_of_isBlank hblank) (fun hmem => ?_) h hc
  simpa [hblank] using List.all_eq_true.mp hthis c hmem

/-- Only backslashes were put into the name. -/
lemma of_backslashes {m : Text} (h : IsUnbroken n) (hne : m ≠ [])
    (hm : ∀ c ∈ m, c = '\\' ∨ c ∈ n) : IsUnbroken m := by
  have hblank : Text.isBlank '\\' = false := by decide
  refine ⟨hne, fun c hc => ?_, fun hopen => ?_⟩
  · obtain rfl | hcn := hm c hc
    · exact hblank
    · exact h.solid c hcn
  · obtain heq | hcn := hm _ hopen
    · exact absurd heq (by decide)
    · exact h.open_notMem hcn

end TypeExpr.IsUnbroken

/-- From one comment to the other every tag with a type keeps its place and its name. Where the line
is another one, white space follows the name exactly if the type does not open with a parenthesis. -/
def IsRespaced (text text' : Text) : Prop :=
  ∀ (i : ℕ) (l name : Text) (v : TypedValue Text), (DocTree.lineTexts text)[i]? = some l →
    Content.read l = .tag ⟨name, .typed v⟩ → ∃ l', (DocTree.lineTexts text')[i]? = some l' ∧
      name <+: l' ∧ (l' ≠ l → (isSpaced name l' ↔ v.type.opensParenthesis = false))

lemma isRespaced_refl (text : Text) : IsRespaced text text := by
  intro i l name v hl hread
  obtain ⟨rest, hname, -⟩ := Content.exists_of_read_typed hread
  exact ⟨l, hl, ⟨rest, (Content.append_of_readTagName hname).symm⟩, fun hne => absurd rfl hne⟩

/-- The line of a tag that has other names now. -/
lemma Renaming.isSpaced_render {r : Renaming} {l name : Text} {v : TypedValue Text} (hl : '\n' ∉ l)
    (hread : Content.read l = .tag ⟨name, .typed v⟩) (hbefore : r.before.written = .read l)
    (hw : ∀ p ∈ r.content.names, TypeExpr.IsUnbroken p.2.written) :
    let line := r.after.written.render
    '\n' ∉ line ∧ Solid line ∧ name <+: line ∧
      (isSpaced name line ↔ v.type.opensParenthesis = false) := by
  intro line
  rw [hread, written_before] at hbefore
  obtain ⟨name', w, hcontent, rfl⟩ := Content.exists_of_map_typed hbefore rfl
  rw [hcontent] at hbefore hw
  obtain rfl : name' = name := (Tag.mk.inj (Content.tag.inj hbefore)).1
  let type := w.type.map (·.2.written)
  let tag : Tag Text := ⟨name', .typed (w.map (·.2.written))⟩
  have hline : line = tag.render :=
    congrArg Content.render ((written_after r).trans (congrArg _ hcontent))
  have hnames : ∀ n ∈ type.names, TypeExpr.IsUnbroken n := by
    rw [TypeExpr.names_map, List.forall_mem_map]
    exact hw
  have hproper : type.isProper := by
    rw [TypeExpr.isProper_map _ (·.1.written)]
    exact (Content.isTrim_of_read_tag hl hread).1.1
  have hsolids : ∀ n ∈ type.names, Solid n ∧ '\n' ∉ n := fun n hn => (hnames n hn).isSolid
  obtain ⟨hfeed, hsolid⟩ := Content.solid_render_typed hl hread hproper hsolids
  have hne : tag.value.render ≠ [] := by
    have htype := (TypeExpr.solid_render_of_solid hproper fun n hn => (hsolids n hn).1).ne_nil
    exact List.append_ne_nil_of_left_ne_nil (List.append_ne_nil_of_left_ne_nil htype _) _
  rw [hline]
  refine ⟨hfeed, hsolid, ?_, ?_⟩
  · obtain ⟨b, -, -, hrender, -⟩ := tag.exists_render_eq
    exact ⟨_, hrender.symm⟩
  · have hopens : tag.value.render.head? = some '(' ↔ w.type.opensParenthesis = true := by
      refine (TypedValue.head?_render_iff _).trans ?_
      rw [← TypeExpr.opensParenthesis_map (·.2.written)]
      exact TypeExpr.head?_render_iff fun n hn => (hnames n hn).head?_ne
    rw [Tag.isSpaced_render_iff hne, ne_eq, hopens, Bool.not_eq_true]
    exact Iff.of_eq (congrArg (· = false) (TypeExpr.opensParenthesis_map _ _).symm)

namespace DocTree

variable {text : Text} {scope : Option NameScope} {rs : List Renaming}

section
variable (hbefore : ((read text).resolveIn scope).entries = rs.map Renaming.before)
include hbefore

/-- Each entry had the text of its line before the change. -/
lemma lineTexts_of_before (hdoc : isDocComment (trim text)) :
    lineTexts text = rs.map fun r => (read text).lineText r.before := by
  have hsame : ∀ e ∈ (read text).entries, (read text).lineText e =
      (read text).lineText ⟨e.content.map (TypeRef.resolveIn scope), e.origin⟩ := by
    intro e he
    let looked : Entry := ⟨e.content.map (TypeRef.resolveIn scope), e.origin⟩
    obtain ⟨o, ho, hc, -⟩ := isKept_read hdoc e he
    have hwritten : looked.written = e.written :=
      Entry.written_mapContent (TypeRef.written_resolveIn scope) e
    have hlooked : (read text).frame.printLine looked = (read text).frame.sourceLine o.line :=
      Frame.printLine_of_untouched _ ho (hc.trans hwritten.symm)
    exact congrArg lineContent ((Frame.printLine_of_untouched _ ho hc).trans hlooked.symm)
  have hentries := congrArg (List.map (read text).lineText) hbefore
  rw [resolveIn, mapNames, mapContents, List.map_map, List.map_map] at hentries
  exact (lineTexts_eq_map_lineText hdoc).trans ((List.map_congr_left hsame).trans hentries)

/-- The line of an entry before the change is read as the entry. -/
lemma read_lineText_of_before (hdoc : isDocComment (trim text)) {r : Renaming} (hr : r ∈ rs) :
    '\n' ∉ (read text).lineText r.before ∧
      r.before.written = .read ((read text).lineText r.before) := by
  obtain ⟨hl, hread⟩ := Frame.read_printLine_of_isKept (isKept_before hbefore hdoc hr)
  exact ⟨fun h => hl.noFeed (mem_of_mem_lineContent h), hread.symm⟩

/-- What was left alone is as it was read, and what was changed is one line. -/
lemma isKept_or_isOneLine_after (hdoc : isDocComment (trim text)) {r : Renaming} (hr : r ∈ rs)
    (hw : ∀ p ∈ r.content.names, TypeExpr.IsUnbroken p.2.written) :
    r.after.IsKept (read text).frame ∨ r.after.isUntouched = false ∧ r.after.IsOneLine := by
  cases hru : r.after.isUntouched with
  | true => exact .inl (Renaming.isKept_after (isKept_before hbefore hdoc hr) hru)
  | false =>
    obtain ⟨name, v, hv⟩ := Renaming.exists_typed (exists_origin_of_before hbefore hr) hru
    obtain ⟨hl, hread⟩ := read_lineText_of_before hbefore hdoc hr
    have htyped : Content.read ((read text).lineText r.before) =
        .tag ⟨name, .typed (v.map (·.1.written))⟩ := by
      rw [← hread, Renaming.written_before, hv]
      rfl
    obtain ⟨hn, hsolid, -⟩ := Renaming.isSpaced_render hl htyped hread hw
    exact .inr ⟨rfl, hn, hsolid.trim_eq, fun hnil => absurd hnil hsolid.ne_nil⟩

end

/-- A comment that is changed is a doc comment, and not blank then. -/
lemma isDocComment_of_touched
    (hbefore : ((read text).resolveIn scope).entries = rs.map Renaming.before) {d : DocTree}
    (hcount : d.readCount = (read text).readCount) (hentries : d.entries = rs.map Renaming.after)
    (hu : d.isUnchanged = false) : isDocComment (trim text) ∧ d.isBlank = false := by
  have horigins := origins_of_before hbefore
  have horigin : ∀ r ∈ rs, ∃ o, r.origin = some o ∧ o.content = r.before.written :=
    fun r hr => exists_origin_of_before hbefore hr
  refine ⟨?_, isBlank_of_touched hcount hentries horigins horigin hu⟩
  obtain ⟨r, hr, name, v, hv⟩ := exists_typed_of_touched hcount hentries horigins horigin hu
  have hmem : r.before.written ∈ (read text).entries.map Entry.written := by
    rw [← map_written_resolveIn scope, hbefore]
    exact List.mem_map_of_mem (List.mem_map_of_mem hr)
  rw [Renaming.written_before, hv] at hmem
  exact isDocComment_of_tag hmem

/-- Unbroken names in the place of the names of a comment, and the line of every tag with a type. -/
theorem isRespaced_print (hbefore : ((read text).resolveIn scope).entries = rs.map Renaming.before)
    (hw : ∀ r ∈ rs, ∀ p ∈ r.content.names, TypeExpr.IsUnbroken p.2.written) :
    let d : DocTree := { (read text).resolveIn scope with entries := rs.map Renaming.after }
    IsRespaced text (d.print text) := by
  intro d
  cases hu : d.isUnchanged with
  | true =>
    rw [print, if_pos hu]
    exact isRespaced_refl text
  | false =>
    obtain ⟨hdoc, hb⟩ := isDocComment_of_touched (d := d) hbefore rfl rfl hu
    have hf : d.frame.IsClear := isClear_read hdoc
    have hafter : ∀ e ∈ d.entries, e.IsKept d.frame ∨ e.isUntouched = false ∧ e.IsOneLine :=
      List.forall_mem_map.mpr fun r hr => isKept_or_isOneLine_after hbefore hdoc hr (hw r hr)
    intro i l name v hl hread
    rw [lineTexts_of_before hbefore hdoc, List.getElem?_map] at hl
    obtain ⟨r, hri, rfl⟩ := Option.map_eq_some_iff.mp hl
    have hr := List.mem_of_getElem? hri
    obtain ⟨hn, hread'⟩ := read_lineText_of_before hbefore hdoc hr
    refine ⟨d.lineText r.after, ?_, ?_⟩
    · rw [lineTexts_print hf hu hb text hafter, List.map_map, List.getElem?_map, hri]
      rfl
    cases hru : r.after.isUntouched with
    | true =>
      obtain ⟨o, ho, hc⟩ := exists_origin_of_before hbefore hr
      obtain ⟨o', ho', hc'⟩ := Entry.isUntouched_iff.mp hru
      have hsame : d.lineText r.after = (read text).lineText r.before := by
        obtain rfl : o' = o := Option.some.inj (ho'.symm.trans ho)
        exact congrArg lineContent ((Frame.printLine_of_untouched _ ho' hc').trans
          (Frame.printLine_of_untouched _ ho hc).symm)
      obtain ⟨rest, hname, -⟩ := Content.exists_of_read_typed hread
      exact ⟨hsame ▸ ⟨rest, (Content.append_of_readTagName hname).symm⟩, fun hne => absurd hsame hne⟩
    | false =>
      obtain ⟨-, hsolid, hname, hspaced⟩ := Renaming.isSpaced_render hn hread hread' (hw r hr)
      have hline : d.lineText r.after = r.after.written.render := by
        rw [lineText, Frame.printLine_of_touched _ hru]
        exact lineContent_lead_of_trim hf.blank hsolid.trim_eq
      rw [hline]
      exact ⟨hname, fun _ => hspaced⟩

end DocTree

namespace DocSlot

/-- In the texts of the two comments. -/
def IsRespaced (s s' : DocSlot) : Prop :=
  DocTypes.IsRespaced (s.text.getD []) (s'.text.getD [])

lemma isRespaced_of_eq {s : DocSlot} : s.IsRespaced s := DocTypes.isRespaced_refl _

/-- Where nothing is printed there is no comment any more. -/
lemma text_writeBack {s : DocSlot} {text : Text} (hs : s.text = some text) (c : DocComment) :
    (s.writeBack c).1.text.getD [] = c.print := by
  rw [writeBack, hs]
  dsimp only
  split
  · rename_i hnil
    exact hnil.symm
  · split
    · rename_i heq
      rw [hs, heq]
      rfl
    · rfl

section
variable {text : Text} {scope : Option NameScope}

lemma isRespaced_editTree_mapNames {g : TypeRef → TypeRef}
    (hw : ∀ r ∈ ((DocTree.read text).resolveIn scope).names, TypeExpr.IsUnbroken (g r).written) :
    (⟨some text, scope⟩ : DocSlot).IsRespaced (editTree (DocTree.mapNames g) ⟨some text, scope⟩).1 := by
  let d := (DocTree.read text).resolveIn scope
  have hnames : ∀ r ∈ d.renamings g, ∀ p ∈ r.content.names, TypeExpr.IsUnbroken p.2.written := by
    intro r hr p hp
    have hmem : p ∈ (d.renamings g).flatMap (·.content.names) := List.mem_flatMap.mpr ⟨r, hr, hp⟩
    rw [DocTree.names_renamings] at hmem
    obtain ⟨n, hn, rfl⟩ := List.mem_map.mp hmem
    exact hw n hn
  have hprint := DocTree.isRespaced_print (DocTree.before_renamings g d).symm hnames
  rw [DocTree.after_renamings] at hprint
  have hrun : editTree (DocTree.mapNames g) ⟨some text, scope⟩ =
      writeBack ⟨some text, scope⟩ ⟨d.mapNames g, text, scope⟩ := rfl
  rw [IsRespaced, hrun, text_writeBack rfl]
  exact hprint

/-- A name with underscores turned into separators has no other new characters. -/
lemma isRespaced_underscoresToNamespaces (start : Text) (excluded : List Text) :
    (⟨some text, scope⟩ : DocSlot).IsRespaced
      (underscoresToNamespaces start excluded ⟨some text, scope⟩).1 := by
  refine isRespaced_editTree_mapNames fun r hr => ?_
  have hname := (DocTree.eq_resolveIn_of_mem_names hr).1
  have hunbroken : TypeExpr.IsUnbroken r.written := .of_isWord (TypeExpr.isWord_of_isName hname)
  dsimp only
  split
  · refine hunbroken.of_backslashes (by simp) fun c hc => ?_
    obtain rfl | hc := List.mem_cons.mp hc
    · exact .inl rfl
    obtain ⟨d, hd, rfl⟩ := List.mem_map.mp hc
    split
    · exact .inl rfl
    · exact .inr ((List.dropWhile_sublist _).mem hd)
  · exact hunbroken

lemma isRespaced_changeTypeOrSubtypes {new : Text} (hn : TypeExpr.isName new)
    (isSubtype : Text → Text → Bool) (old : Text) :
    (⟨some text, scope⟩ : DocSlot).IsRespaced
      (changeTypeOrSubtypes isSubtype old new ⟨some text, scope⟩).1 := by
  rw [changeTypeOrSubtypes]
  split
  · rw [editTree_replaceType]
    exact isRespaced_editTree_mapNames fun r hr => .of_isWord (isWord_retyped hn text scope r hr)
  · exact isRespaced_of_eq

lemma isRespaced_importNames (classExists : Text → Bool) (st : ImportState) :
    (⟨some text, scope⟩ : DocSlot).IsRespaced
      (importNames classExists ⟨some text, scope⟩ st).1.1 := by
  let d := (DocTree.read text).resolveIn scope
  obtain ⟨rs, hbefore, hafter, hsteps⟩ := d.exists_shorten classExists (scope.getD .global) st
  have hnames : ∀ r ∈ rs, ∀ p ∈ r.content.names, TypeExpr.IsUnbroken p.2.written := by
    intro r hr p hp
    have hread : p.1 ∈ d.names := by
      rw [DocTree.names_of_entries Prod.fst hbefore]
      exact List.mem_map_of_mem (List.mem_flatMap.mpr ⟨r, hr, hp⟩)
    have hname := (DocTree.eq_resolveIn_of_mem_names hread).1
    have hshort := hsteps.forall_mem (TypeRef.isShortened_shorten classExists _) p
      (List.mem_flatMap.mpr ⟨r, hr, hp⟩)
    exact .of_isWord (TypeRef.isWord_of_isShortened hshort hname)
  have hrun : (importNames classExists ⟨some text, scope⟩ st).1.1 =
      (writeBack ⟨some text, scope⟩
        ⟨(d.shorten classExists (scope.getD .global) st).1, text, scope⟩).1 := rfl
  rw [IsRespaced, hrun, text_writeBack rfl, hafter]
  exact DocTree.isRespaced_print hbefore hnames

end

/-- Where other types make another line of a tag, white space follows its name unless the type opens
with a parenthesis. -/
theorem isRespaced_of_edit (s : DocSlot) :
    (∀ (isSubtype : Text → Text → Bool) (old new : Text), TypeExpr.isName new →
      s.IsRespaced (s.changeType old new).1 ∧
      s.IsRespaced (s.changeTypeOrSubtypes isSubtype old new).1) ∧
    (∀ (start : Text) (excluded : List Text),
      s.IsRespaced (s.underscoresToNamespaces start excluded).1) ∧
    ∀ (classExists : Text → Bool) (st : ImportState),
      s.IsRespaced (s.importNames classExists st).1.1 := by
  obtain ⟨_ | text, scope⟩ := s
  · exact ⟨fun _ _ _ _ => ⟨isRespaced_of_eq, isRespaced_of_eq⟩, fun _ _ => isRespaced_of_eq,
      fun _ _ => isRespaced_of_eq⟩
  · exact ⟨fun isSubtype old new hn => ⟨isRespaced_changeTypeOrSubtypes hn _ old,
      isRespaced_changeTypeOrSubtypes hn isSubtype old⟩, isRespaced_underscoresToNamespaces,
      isRespaced_importNames⟩

/-- A parenthesis inside the type, and one at its beginning. -/
theorem isRespaced_of_edit_members :
    let s : DocSlot := ⟨some "/**\n * @param\t?(A&B)|C $a A note.\n * @throws (A|B)[]\n */", none⟩
    let s' := (s.changeType "A" "Lib\\C").1
    TypeExpr.isName "Lib\\C" ∧ s.IsRespaced s' ∧
      s'.text = some "/**\n * @param ?\\Lib\\C&B|C $a A note.\n * @throws(\\Lib\\C|B)[]\n */".toList := by
  intro s s'
  have hname : TypeExpr.isName "Lib\\C" := by decide
  exact ⟨hname, ((isRespaced_of_edit s).1 (fun _ _ => false) "A" "Lib\\C" hname).1, by decide +kernel⟩

/-- The white space in front of the parenthesis is lost. -/
theorem changeType_parenthesized :
    let s : DocSlot := ⟨some "/** @var (A|B)[] */", none⟩
    let s' := (s.changeType "A" "C").1
    let v : TypedValue Text := .ofType (.array (.union [.name "A", .name "B"]))
    TypeExpr.isName "C" ∧ s'.text = some "/** @var(C|B)[] */".toList ∧
      DocTree.lineTexts (s.text.getD []) = ["@var (A|B)[]"] ∧
      Content.read "@var (A|B)[]" = .tag ⟨"@var", .typed v⟩ ∧ isSpaced "@var" "@var (A|B)[]" ∧
      DocTree.lineTexts (s'.text.getD []) = ["@var(C|B)[]"] ∧
      isSpaced "@var" "@var(C|B)[]" = false := by
  decide +kernel

end DocSlot
end DocTypes
