import DocTypes.Doc.TypeEdit
import DocTypes.Proofs.Doc.Printing
import DocTypes.Proofs.Doc.TagReading
import Mathlib.Data.List.Forall2

/-!
Setting a tag twice. The comment that the first time leaves is read with the tag in the same place
and nothing else of its name, so the second time prints the same comment.
-/
namespace DocTypes
open Text

namespace Entry

lemma isTagNamed_eq (name : Text) (e : Entry) :
    e.isTagNamed name = e.written.tag?.any (·.name == name) := by
  rw [isTagNamed, written]
  cases e.content <;> rfl

@[simp] lemma written_new_tag (t : Tag Text) : (new (.tag (t.map .ofWritten))).written = .tag t :=
  Content.map_written_ofWritten (.tag t)

end Entry

namespace Content

lemma exists_cons_of_read_tag {s : Text} {t : Tag Text} (h : Content.read s = .tag t) :
    ∃ r, s = '@' :: r := by
  rw [Content.read] at h
  split at h
  · cases h
  · rename_i name rest hname
    obtain ⟨mark, c, r, hmark, -, rfl, rfl, -⟩ := readTagName_cases hname
    cases hmark with
    | inl hm => exact ⟨_, by rw [hm]; rfl⟩
    | inr hm => exact ⟨_, by rw [hm]; rfl⟩

end Content

/-- A tag is one line if its value is. -/
lemma Tag.isLine_render {t : Tag Text} {s rest : Text}
    (hn : Content.readTagName s = some (t.name, rest)) (hv : IsLine t.value.render) :
    IsLine t.render := by
  have hname : IsLine t.name := by
    have hblank := Content.isBlank_of_readTagName hn
    refine ⟨fun hc => absurd (hblank _ hc) (by decide), fun r hr => ?_⟩
    exact absurd (hblank '\r' (by simp [hr])) (by decide)
  rw [Tag.render]
  split
  · exact hname
  · rename_i h
    exact IsLine.append hname.noFeed (h ▸ hv) (List.cons_ne_nil _ _)
  · rename_i h
    exact IsLine.append hname.noFeed
      (IsLine.append (s := [' ']) (by decide) (h ▸ hv) (List.cons_ne_nil _ _))
      (List.cons_ne_nil _ _)

/-- The tag is one line, which reads as a tag of the same name. -/
structure Tag.IsSteady (t : Tag Text) : Prop where
  isLine : IsLine t.render
  reads : ∃ value, Content.read (trimEnd t.render) = .tag ⟨t.name, value⟩

namespace Tag

lemma IsSteady.trim_render {t : Tag Text} (ht : t.IsSteady) :
    trim t.render = trimEnd t.render ∧ trim t.render ≠ [] := by
  obtain ⟨value, hv⟩ := ht.reads
  obtain ⟨r, hr⟩ := Content.exists_cons_of_read_tag hv
  rw [trim, ← trimStart_trimEnd, hr, trimStart_cons (by decide)]
  exact ⟨rfl, by simp⟩

end Tag

namespace DocTree

lemma isUnchanged_of_touched {d : DocTree} {e : Entry} (he : e ∈ d.entries)
    (hu : e.isUntouched = false) : d.isUnchanged = false := by
  rw [Bool.eq_false_iff]
  intro h
  simp only [isUnchanged, Bool.and_eq_true, List.all_eq_true, List.mem_zipIdx_iff_getElem?,
    Prod.forall] at h
  obtain ⟨i, hi⟩ := List.getElem?_of_mem he
  simp [(h.2 e i hi).1] at hu

lemma isBlank_of_tag {d : DocTree} {e : Entry} (he : e ∈ d.entries) {t : Tag TypeRef}
    (ht : e.content = .tag t) : d.isBlank = false := by
  rw [Bool.eq_false_iff]
  intro h
  have := List.all_eq_true.mp h e he
  simp [ht, Content.isBlank] at this

/-! Putting a tag into a tree. -/

/-- The tag in the place of all tags of its name, behind the content if there are none. -/
def putTag (t : Tag Text) (d : DocTree) : DocTree :=
  match d.position? t.name with
  | some p => (d.removeNamed t.name).insertAt p (t.map .ofWritten)
  | none => d.insertAfterContent (t.map .ofWritten)

/-- The tag stands between the entries that do not have its name. -/
lemma exists_entries_putTag (t : Tag Text) (d : DocTree) :
    (putTag t d).frame = d.frame ∧
      ∃ es fs, (putTag t d).entries = es ++ .new (.tag (t.map .ofWritten)) :: fs ∧
        es ++ fs = d.entries.filter fun e => !e.isTagNamed t.name := by
  rw [putTag]
  cases hp : d.position? t.name with
  | some p => exact ⟨rfl, _, _, rfl, List.take_append_drop _ _⟩
  | none =>
    refine ⟨rfl, _, _, rfl, (List.take_append_drop _ _).trans (Eq.symm ?_)⟩
    exact List.filter_eq_self.mpr fun e he => by simp [List.findIdx?_eq_none_iff.mp hp e he]

/-- Beside the tag there is what was kept before, and no tag of its name. -/
lemma isKept_of_others {d : DocTree} {name : Text} {es fs : List Entry}
    (hothers : es ++ fs = d.entries.filter fun e => !e.isTagNamed name)
    (hk : ∀ e ∈ d.entries, e.IsKept d.frame) :
    ∀ e ∈ es ++ fs, e.IsKept d.frame ∧ e.isTagNamed name = false := by
  intro e he
  rw [hothers, List.mem_filter, Bool.not_eq_true'] at he
  exact ⟨hk e he.1, he.2⟩

/-- The only tag of its name makes room for the tag. -/
lemma entries_putTag_of_only {t : Tag Text} {d : DocTree} {es fs : List Entry} {e : Entry}
    (hd : d.entries = es ++ e :: fs) (he : e.isTagNamed t.name)
    (hes : ∀ e ∈ es, e.isTagNamed t.name = false) (hfs : ∀ e ∈ fs, e.isTagNamed t.name = false) :
    (putTag t d).frame = d.frame ∧
      (putTag t d).entries = es ++ .new (.tag (t.map .ofWritten)) :: fs := by
  have hp : d.position? t.name = some es.length := by
    rw [position?, hd, List.findIdx?_append, List.findIdx?_eq_none_iff.mpr hes, List.findIdx?_cons,
      if_pos he]
    simp
  have hfilter : d.entries.filter (fun e => !e.isTagNamed t.name) = es ++ fs := by
    have h : ∀ l : List Entry, (∀ e ∈ l, e.isTagNamed t.name = false) →
        l.filter (fun e => !e.isTagNamed t.name) = l := fun l hl =>
      List.filter_eq_self.mpr fun e he => by simp [hl e he]
    rw [hd, List.filter_append, List.filter_cons, if_neg (by simp [he]), h es hes, h fs hfs]
  rw [putTag, hp]
  refine ⟨rfl, ?_⟩
  dsimp only [insertAt, removeNamed]
  rw [hfilter, List.take_left, List.drop_left]

/-! Lines that are read again. -/

lemma exists_append_of_forall₂ {α β : Type} {R : α → β → Prop} {as bs : List α} {cs : List β}
    (h : List.Forall₂ R (as ++ bs) cs) :
    ∃ cs₁ cs₂, cs = cs₁ ++ cs₂ ∧ List.Forall₂ R as cs₁ ∧ List.Forall₂ R bs cs₂ := by
  refine ⟨cs.take as.length, cs.drop as.length, (List.take_append_drop ..).symm, ?_, ?_⟩
  · simpa using List.forall₂_take as.length h
  · simpa using List.forall₂_drop as.length h

lemma trimEnd_printLine_of_isKept {f : Frame} {e : Entry} (h : e.IsKept f) :
    trimEnd (f.printLine e) = f.printLine e := by
  obtain ⟨line, hl, hf⟩ := Frame.exists_printLine_of_isKept h
  rw [hl]
  cases f with
  | inline =>
    exact trimEnd_lead " " hf.trimmed
  | block b => exact hf.trimmed

/-- The entry is what was read from the line, with `g` applied to the names. -/
structure IsFrom (g : TypeRef → TypeRef) (line : Text) (e : Entry) : Prop where
  origin : ∃ i, e.origin = some ⟨i, trimEnd line, .read (lineContent line)⟩
  content : e.content = (Content.read (lineContent line)).map (g ∘ .ofWritten)

lemma written_of_content {g : TypeRef → TypeRef} (hg : ∀ r, (g r).written = r.written) {e : Entry}
    {c : Content Text} (h : e.content = c.map (g ∘ .ofWritten)) : e.written = c := by
  have hid : TypeRef.written ∘ g ∘ .ofWritten = id := funext fun n => hg (.ofWritten n)
  rw [Entry.written, h, Content.map_map, hid, Content.map_id]

lemma forall₂_isFrom (g : TypeRef → TypeRef) (f : Frame) (lines : List Text) :
    List.Forall₂ (IsFrom g) lines ((ofLines f (lines.map contentLine)).mapNames g).entries := by
  rw [List.forall₂_iff_get]
  refine ⟨by simp [mapNames, mapContents, ofLines], fun i hi hj => ?_⟩
  simp only [mapNames, mapContents, ofLines, List.get_eq_getElem, List.getElem_map,
    List.getElem_mapIdx]
  exact ⟨⟨i, rfl⟩, Content.map_map _ _ _⟩

section
variable {g : TypeRef → TypeRef} (hg : ∀ r, (g r).written = r.written)
include hg

lemma IsFrom.written {line : Text} {e : Entry} (h : IsFrom g line e) :
    e.written = .read (lineContent line) := written_of_content hg h.content

lemma printLine_of_isFrom {line : Text} {e : Entry} (h : IsFrom g line e) (b : Block) :
    (Frame.block b).printLine e = trimEnd line := by
  obtain ⟨i, hi⟩ := h.origin
  exact Frame.printEntry_of_untouched _ hi (h.written hg).symm

omit hg in
/-- What is read from the lines of entries is like the entries, if it is for each line. -/
lemma map_eq_map_of_isFrom {β : Type} {f : Frame} {es es' : List Entry} {old new : Entry → β}
    (h : List.Forall₂ (IsFrom g) (es.map f.printLine) es')
    (hsame : ∀ e ∈ es, ∀ e', IsFrom g (f.printLine e) e' → new e' = old e) :
    es'.map new = es.map old := by
  have hpairs := (List.forall₂_and_left _ _).mpr ⟨fun _ he => he, List.forall₂_map_left_iff.mp h⟩
  rw [eq_comm, ← List.forall₂_eq_eq_eq, List.forall₂_map_left_iff, List.forall₂_map_right_iff]
  exact hpairs.imp fun e e' ⟨he, hfrom⟩ => (hsame e he e' hfrom).symm

/-- Lines of kept entries, read and printed once more, are the same lines. -/
lemma map_printLine_of_isFrom {f : Frame} {b : Block} {es es' : List Entry}
    (hk : ∀ e ∈ es, e.IsKept f) (h : List.Forall₂ (IsFrom g) (es.map f.printLine) es') :
    es'.map (Frame.block b).printLine = es.map f.printLine :=
  map_eq_map_of_isFrom h fun e he _ hfrom =>
    (printLine_of_isFrom hg hfrom b).trans (trimEnd_printLine_of_isKept (hk e he))

/-- They are tags of the same names, too. -/
lemma isTagNamed_of_isFrom {f : Frame} {name : Text} {es es' : List Entry}
    (hk : ∀ e ∈ es, e.IsKept f) (hn : ∀ e ∈ es, e.isTagNamed name = false)
    (h : List.Forall₂ (IsFrom g) (es.map f.printLine) es') :
    ∀ e ∈ es', e.isTagNamed name = false := by
  have hnamed : es'.map (·.isTagNamed name) = es.map (·.isTagNamed name) :=
    map_eq_map_of_isFrom h fun e he _ hfrom => by
      rw [Entry.isTagNamed_eq, Entry.isTagNamed_eq, hfrom.written hg,
        (Frame.read_printLine_of_isKept (hk e he)).2]
  have hall : ∀ b ∈ es.map (·.isTagNamed name), b = false := List.forall_mem_map.mpr hn
  rw [← hnamed, List.forall_mem_map] at hall
  exact hall

end

/-! The same comment again. -/

section
variable {t : Tag Text} {d : DocTree} {es fs : List Entry}

lemma isUnchanged_of_new (he : d.entries = es ++ .new (.tag (t.map .ofWritten)) :: fs) :
    d.isUnchanged = false :=
  isUnchanged_of_touched (e := .new (.tag (t.map .ofWritten))) (by simp [he]) rfl

lemma isBlank_of_new (he : d.entries = es ++ .new (.tag (t.map .ofWritten)) :: fs) :
    d.isBlank = false :=
  isBlank_of_tag (e := .new (.tag (t.map .ofWritten))) (by simp [he]) rfl

/-- A new tag that is alone in a comment of one line. -/
lemma print_new_single {e : Entry} (hd : d.entries = es ++ .new (.tag (t.map .ofWritten)) :: fs)
    (hf : d.frame = .inline) (he : d.entries = [e]) (source : Text) :
    d.print source = "/** " ++ t.render ++ " */" := by
  have hnew : Entry.new (.tag (t.map .ofWritten)) ∈ d.entries := by simp [hd]
  rw [he, List.mem_singleton] at hnew
  rw [print_single hf he (isUnchanged_of_new hd) (isBlank_of_new hd), ← hnew,
    Frame.printEntry_of_touched _ rfl, Entry.written_new_tag]
  rfl

lemma lineContent_printLine_new {f : Frame} (hf : f.IsUsual) (ht : t.IsSteady) :
    IsLine (f.printLine (.new (.tag (t.map .ofWritten)))) ∧
      lineContent (f.printLine (.new (.tag (t.map .ofWritten)))) = trimEnd t.render := by
  rw [Frame.printLine_of_touched f rfl, Entry.written_new_tag]
  exact ⟨isLine_lead hf.noFeed ht.isLine, lineContent_lead hf.blank _⟩

/-- The tag is found in one place, and the tree that has it there as it was put prints the same
comment. -/
structure IsFound (t : Tag Text) (g : TypeRef → TypeRef) (d d' : DocTree) (source : Text)
    (es : List Entry) (e : Entry) (fs : List Entry) : Prop where
  entries : d'.entries = es ++ e :: fs
  content : e.content = (Content.read (trimEnd t.render)).map (g ∘ .ofWritten)
  before : ∀ e ∈ es, e.isTagNamed t.name = false
  behind : ∀ e ∈ fs, e.isTagNamed t.name = false
  prints : ∀ (d₁ : DocTree) (source₁ : Text), d₁.frame = d'.frame →
    d₁.entries = es ++ .new (.tag (t.map .ofWritten)) :: fs → d₁.print source₁ = d.print source

/-- One entry among others that are kept: each has its line. -/
lemma isLine_printLine_of_others {e : Entry} (hd : d.entries = es ++ e :: fs)
    (he : IsLine (d.frame.printLine e)) (hk : ∀ e ∈ es ++ fs, e.IsKept d.frame) :
    ∀ e ∈ d.entries, IsLine (d.frame.printLine e) := by
  have hothers : ∀ e ∈ es ++ fs, IsLine (d.frame.printLine e) := fun e he =>
    (Frame.read_printLine_of_isKept (hk e he)).1
  rw [List.forall_mem_append] at hothers
  rw [hd, List.forall_mem_append, List.forall_mem_cons]
  exact ⟨hothers.1, he, hothers.2⟩

/-- Among other lines the tag is found on its line, and every other line is kept. -/
lemma isFound_lines (hf : d.frame.IsUsual) (ht : t.IsSteady)
    (hd : d.entries = es ++ .new (.tag (t.map .ofWritten)) :: fs)
    (hes : ∀ e ∈ es, e.IsKept d.frame ∧ e.isTagNamed t.name = false)
    (hfs : ∀ e ∈ fs, e.IsKept d.frame ∧ e.isTagNamed t.name = false)
    (hs : d.frame = .inline → ∀ e, d.entries ≠ [e]) {g : TypeRef → TypeRef}
    (hg : ∀ r, (g r).written = r.written) (source : Text) :
    ∃ es' e' fs', IsFound t g d ((read (d.print source)).mapNames g) source es' e' fs' := by
  obtain ⟨hline, hcontent⟩ := lineContent_printLine_new hf ht
  have hl := isLine_printLine_of_others hd hline <|
    List.forall_mem_append.mpr ⟨fun e he => (hes e he).1, fun e he => (hfs e he).1⟩
  have hu := isUnchanged_of_new hd
  have hb := isBlank_of_new hd
  have hread : read (d.print source) =
      ofLines d.frame.expanded ((d.entries.map d.frame.printLine).map contentLine) := by
    rw [read_print_lines hf hu hb hs hl, List.map_map]
    rfl
  have hfrom := forall₂_isFrom g d.frame.expanded (d.entries.map d.frame.printLine)
  rw [← hread, hd, List.map_append, List.map_cons] at hfrom
  obtain ⟨es', rest, hd', hes', hrest⟩ := exists_append_of_forall₂ hfrom
  obtain ⟨e', fs', he', hfs', rfl⟩ := List.forall₂_cons_left_iff.mp hrest
  refine ⟨es', e', fs', hd', hcontent ▸ he'.content,
    isTagNamed_of_isFrom hg (fun e he => (hes e he).1) (fun e he => (hes e he).2) hes',
    isTagNamed_of_isFrom hg (fun e he => (hfs e he).1) (fun e he => (hfs e he).2) hfs',
    fun d₁ source₁ hframe hput => ?_⟩
  have hexp : d₁.frame = d.frame.expanded := by
    rw [hframe, hread]
    rfl
  have hlines : d₁.entries.map d₁.frame.printLine = d.entries.map d.frame.printLine := by
    have hnew : d.frame.expanded.printLine (.new (.tag (t.map .ofWritten))) =
        d.frame.printLine (.new (.tag (t.map .ofWritten))) := by
      rw [Frame.printLine_of_touched _ rfl, Frame.printLine_of_touched _ rfl, Frame.indent_expanded]
    rw [hput, hd, hexp, List.map_append, List.map_append, List.map_cons, List.map_cons, hnew]
    rw [Frame.expanded, map_printLine_of_isFrom hg (fun e he => (hes e he).1) hes',
      map_printLine_of_isFrom hg (fun e he => (hfs e he).1) hfs']
  have hs₁ : d₁.frame = .inline → ∀ e, d₁.entries ≠ [e] := by
    intro h
    rw [hexp, Frame.expanded] at h
    cases h
  rw [print_lines (hexp ▸ hf.expanded) (isUnchanged_of_new hput) (isBlank_of_new hput) hs₁, hlines,
    hexp, print_lines hf hu hb hs]
  rfl

/-- Alone between the marks the tag is all there is. -/
lemma isFound_single (ht : t.IsSteady) (hf : d.frame = .inline)
    (hd : d.entries = [.new (.tag (t.map .ofWritten))]) (g : TypeRef → TypeRef) (source : Text) :
    ∃ es' e' fs', IsFound t g d ((read (d.print source)).mapNames g) source es' e' fs' := by
  obtain ⟨htrim, hne⟩ := ht.trim_render
  have hprint : ∀ (d : DocTree) (s : Text), d.frame = .inline →
      d.entries = [.new (.tag (t.map .ofWritten))] → d.print s = "/** " ++ t.render ++ " */" :=
    fun _ s hf hd => print_new_single (hd.trans (List.nil_append _).symm) hf hd s
  have hread := read_oneLine ht.isLine.noFeed hne
  rw [htrim, ← hprint d source hf hd] at hread
  refine ⟨[], _, [], by rw [hread]; rfl, Content.map_map _ _ _, by simp, by simp, ?_⟩
  intro d₁ source₁ hframe hput
  rw [hread] at hframe
  rw [hprint d₁ source₁ hframe hput, hprint d source hf hd]

theorem exists_isFound (hf : d.frame.IsUsual) (hk : ∀ e ∈ d.entries, e.IsKept d.frame)
    (ht : t.IsSteady) {g : TypeRef → TypeRef} (hg : ∀ r, (g r).written = r.written)
    (source : Text) : ∃ es e fs, IsFound t g (putTag t d)
      ((read ((putTag t d).print source)).mapNames g) source es e fs := by
  obtain ⟨hframe, es, fs, hd, hothers⟩ := exists_entries_putTag t d
  have hkept := isKept_of_others hothers hk
  rw [← hframe, List.forall_mem_append] at hkept
  generalize putTag t d = d₁ at *
  rw [← hframe] at hf
  obtain hs | ⟨hi, e, he⟩ := d₁.isSpread_or_single
  · exact isFound_lines hf ht hd hkept.1 hkept.2 hs hg source
  · rw [hd, List.append_eq_singleton_iff] at he
    obtain ⟨rfl, hfs'⟩ | ⟨-, hnil⟩ := he
    · rw [List.cons.injEq] at hfs'
      obtain ⟨-, rfl⟩ := hfs'
      exact isFound_single ht hi hd g source
    · cases hnil

/-- The second time prints what the first time printed. -/
theorem print_putTag_read_print (hf : d.frame.IsUsual) (hk : ∀ e ∈ d.entries, e.IsKept d.frame)
    (ht : t.IsSteady) {g : TypeRef → TypeRef} (hg : ∀ r, (g r).written = r.written)
    (source source' : Text) :
    (putTag t ((read ((putTag t d).print source)).mapNames g)).print source' =
      (putTag t d).print source := by
  obtain ⟨es, e, fs, h⟩ := exists_isFound hf hk ht hg source
  obtain ⟨value, hvalue⟩ := ht.reads
  have hnamed : e.isTagNamed t.name := by
    rw [Entry.isTagNamed_eq, written_of_content hg h.content, hvalue]
    simp [Content.tag?]
  obtain ⟨hframe, hput⟩ := entries_putTag_of_only h.entries hnamed h.before h.behind
  exact h.prints _ source' hframe hput

lemma print_putTag_ne_nil (t : Tag Text) (d : DocTree) (source : Text)
    (he : IsLineEnd d.frame.lineEnd) : (putTag t d).print source ≠ [] := by
  obtain ⟨hframe, es, fs, hd, -⟩ := exists_entries_putTag t d
  exact print_ne_nil (hframe ▸ he) (isUnchanged_of_new hd) (isBlank_of_new hd)

end

end DocTree

/-! Setting a tag at a declaration. -/

namespace DocSlot

variable {s : DocSlot} {t : Tag Text}

/-- There is no comment, or one that begins with `/**`. -/
def IsTidy (s : DocSlot) : Prop :=
  ∀ text, s.text = some text → startsWith "/**" text ∧ DocTree.isDocComment (trim text)

instance : DecidablePred IsTidy := fun s =>
  inferInstanceAs (Decidable (∀ text ∈ s.text, startsWith "/**" text ∧
    DocTree.isDocComment (trim text)))

lemma IsTidy.text_ne (h : s.IsTidy) : s.text ≠ some [] := fun hs =>
  absurd (h _ hs).1 (by decide)

lemma setTag_of_some {text : Text} (h : s.text = some text) (t : Tag Text) :
    s.setTag t = s.writeBack
      ⟨((DocTree.read text).resolveIn s.scope).putTag t, text, s.scope⟩ := by
  rw [setTag, if_pos (by simp [h]), editTree, comment?, h]
  rfl

lemma isKept_mapNames {d : DocTree} {f : Frame} {g : TypeRef → TypeRef}
    (hg : ∀ r, (g r).written = r.written) (h : ∀ e ∈ d.entries, e.IsKept f) :
    ∀ e ∈ (d.mapNames g).entries, e.IsKept f := by
  intro e he
  obtain ⟨e₀, he₀, rfl⟩ := List.mem_map.mp he
  obtain ⟨o, ho, hc, hf⟩ := h e₀ he₀
  exact ⟨o, ho, hc.trans (Entry.written_mapContent hg e₀).symm, hf⟩

lemma writeBack_of_ne_nil {text : Text} (hs : s.text = some text) {c : DocComment}
    (hc : c.print ≠ []) :
    s.writeBack c = ({ s with text := some c.print }, !(c.print == text)) := by
  obtain ⟨text₀, scope⟩ := s
  obtain rfl : text₀ = some text := hs
  rw [writeBack]
  cases hp : c.print with
  | nil => exact absurd hp hc
  | cons a r =>
    by_cases h : a :: r = text
    · simp [h]
    · simp [h]

/-- What is printed is stored, and nothing where nothing is printed. -/
lemma fst_writeBack {text : Text} (hs : s.text = some text) (c : DocComment) :
    (s.writeBack c).1 = { s with text := if c.print = [] then none else some c.print } := by
  by_cases hc : c.print = []
  · rw [writeBack, hs, if_pos hc]
    dsimp only
    rw [hc]
  · rw [writeBack_of_ne_nil hs hc, if_neg hc]

lemma isUsual_blank : DocTree.blank.frame.IsUsual := by
  refine ⟨by decide, by decide, .inl rfl, fun b hb => ?_⟩
  cases hb
  exact ⟨rfl, rfl⟩

/-- A tag is created as if it were put into a comment without content. -/
lemma text_setTag_of_none (hs : s.text = none) (t : Tag Text) :
    s.setTag t = ({ s with text := some ((DocTree.blank.putTag t).print []) }, true) := by
  have hd : (DocTree.blank.putTag t).entries = [] ++ .new (.tag (t.map .ofWritten)) :: [] := rfl
  have hframe : (DocTree.blank.putTag t).frame = DocTree.blank.frame := rfl
  have hprint : (DocTree.blank.putTag t).print [] = DocTree.renderLines [t.render] := by
    rw [DocTree.print_lines (hframe ▸ isUsual_blank) (DocTree.isUnchanged_of_new hd)
      (DocTree.isBlank_of_new hd) (fun h => absurd h nofun), hd, List.nil_append,
      List.map_singleton, Frame.printLine_of_touched _ rfl, Entry.written_new_tag]
    rfl
  rw [setTag, if_neg (by simp [hs]), create, hprint]

lemma text_setTag_of_some {text : Text} (hs : s.text = some text) (t : Tag Text)
    (he : IsLineEnd (DocTree.read text).frame.lineEnd) :
    (s.setTag t).1 =
      { s with text := some ((((DocTree.read text).resolveIn s.scope).putTag t).print text) } := by
  rw [setTag_of_some hs, writeBack_of_ne_nil hs]
  · rfl
  · exact DocTree.print_putTag_ne_nil t _ text he

/-- The tree that a tag is put into: that of the comment, or a blank one. -/
def tree (s : DocSlot) : DocTree :=
  match s.comment? with
  | some c => c.tree
  | none => .blank

lemma tree_of_some {text : Text} (hs : s.text = some text) :
    s.tree = (DocTree.read text).resolveIn s.scope := by
  rw [tree, comment?, hs]
  rfl

lemma tree_of_none (hs : s.text = none) : s.tree = .blank := by
  rw [tree, comment?, hs]
  rfl

/-- The lines of the comment, with what the names in them stand for. -/
def contents (s : DocSlot) : List (Content TypeRef) :=
  match s.comment? with
  | some c => c.tree.entries.map (·.content)
  | none => []

lemma contents_eq (s : DocSlot) : s.contents = s.tree.entries.map (·.content) := by
  rw [contents, tree]
  cases s.comment? <;> rfl

/-- Before the tag is put into it, the tree prints every entry on the line it was read from. -/
lemma isKept_tree (h : s.IsTidy) :
    s.tree.frame.IsUsual ∧ ∀ e ∈ s.tree.entries, e.IsKept s.tree.frame := by
  cases hs : s.text with
  | none =>
    rw [tree_of_none hs]
    exact ⟨isUsual_blank, nofun⟩
  | some text =>
    obtain ⟨husual, hkept⟩ := DocTree.isUsual_read (h text hs).1 (h text hs).2
    rw [tree_of_some hs]
    exact ⟨husual, isKept_mapNames (TypeRef.written_resolveIn s.scope) hkept⟩

/-- What a declaration has after a tag was set. -/
lemma setTag_eq_print (h : s.IsTidy) (t : Tag Text) :
    (s.setTag t).1 = { s with text := some ((s.tree.putTag t).print (s.text.getD [])) } := by
  cases hs : s.text with
  | none => rw [text_setTag_of_none hs, tree_of_none hs, Option.getD_none]
  | some text =>
    have husual := (DocTree.isUsual_read (h text hs).1 (h text hs).2).1
    rw [text_setTag_of_some hs t husual.lineEnd, tree_of_some hs, Option.getD_some]

lemma exists_setTag (h : s.IsTidy) (t : Tag Text) : ∃ (d : DocTree) (source : Text),
    d.frame.IsUsual ∧ (∀ e ∈ d.entries, e.IsKept d.frame) ∧
      (s.setTag t).1 = { s with text := some ((d.putTag t).print source) } :=
  ⟨s.tree, _, (isKept_tree h).1, (isKept_tree h).2, setTag_eq_print h t⟩

/-- Setting a tag that is read as one line changes nothing the second time. -/
theorem setTag_setTag (h : s.IsTidy) (ht : t.IsSteady) :
    (s.setTag t).1.setTag t = ((s.setTag t).1, false) := by
  obtain ⟨d, source, hf, hk, hs⟩ := exists_setTag h t
  have hg := TypeRef.written_resolveIn s.scope
  have hprint := DocTree.print_putTag_read_print hf hk ht hg source ((d.putTag t).print source)
  have hne := DocTree.print_putTag_ne_nil t d source hf.lineEnd
  have hprint' : DocComment.print ⟨((DocTree.read ((d.putTag t).print source)).resolveIn
      s.scope).putTag t, (d.putTag t).print source, s.scope⟩ = (d.putTag t).print source := hprint
  rw [hs, setTag_of_some rfl, writeBack_of_ne_nil rfl (by rw [hprint']; exact hne), hprint',
    beq_self_eq_true]
  rfl

end DocSlot
end DocTypes
