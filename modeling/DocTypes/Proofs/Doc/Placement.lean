import DocTypes.Proofs.Doc.ChangeVar
import DocTypes.Proofs.Doc.Edits
import Mathlib.Data.List.DropRight
import Mathlib.Data.List.InsertIdx

/-!
Where the types of `@var` are set. The tag stands in the place of the first `@var`, or behind the
last line that is not blank, and every line that is no `@var` is read as before.
-/
namespace DocTypes
open Text

/-! Lines and places among them. -/

lemma insertIdx_length_append {α : Type} (es fs : List α) (a : α) :
    (es ++ fs).insertIdx es.length a = es ++ a :: fs := by
  induction es with
  | nil => rfl
  | cons e es ih => simp [ih]

namespace Content

variable {ν : Type}

def isTagNamed (name : Text) (c : Content ν) : Bool := c.tag?.any (·.name == name)

/-- Where a tag of the name belongs: where the first one stands, or behind the last line that is not
blank. -/
def placeOf (name : Text) (cs : List (Content ν)) : Nat :=
  (cs.findIdx? (isTagNamed name)).getD (cs.rdropWhile isBlank).length

/-- What a line holds once its names are looked up. -/
def lookedUp (scope : Option NameScope) (c : Content Text) : Content TypeRef :=
  c.map fun w => (TypeRef.ofWritten w).resolveIn scope

/-- Looking names up does not change what is written. -/
lemma map_written_lookedUp (scope : Option NameScope) (c : Content Text) :
    (c.lookedUp scope).map (·.written) = c := by
  have hid : TypeRef.written ∘ (fun w => (TypeRef.ofWritten w).resolveIn scope) = id :=
    funext fun w => TypeRef.written_resolveIn scope _
  rw [lookedUp, map_map, hid, map_id]

end Content

namespace Entry

lemma isTagNamed_content (name : Text) (e : Entry) :
    e.content.isTagNamed name = e.isTagNamed name := by
  rw [isTagNamed, Content.isTagNamed]
  cases e.content <;> rfl

/-- A new entry is read as its text. -/
lemma reread_new_tag (t : Tag Text) : (new (.tag (t.map .ofWritten))).reread = .read t.render := by
  have hu : (new (.tag (t.map .ofWritten))).isUntouched = false := rfl
  rw [reread, hu, if_neg Bool.false_ne_true, written_new_tag]
  rfl

end Entry

namespace DocTree

lemma entries_insertAt {d : DocTree} {position : Nat} (h : position ≤ d.entries.length)
    (t : Tag TypeRef) :
    (d.insertAt position t).entries = d.entries.insertIdx position (.new (.tag t)) := by
  have htake : (d.entries.take position).length = position := List.length_take_of_le h
  have hinsert := insertIdx_length_append (d.entries.take position) (d.entries.drop position)
    (.new (.tag t))
  rw [htake, List.take_append_drop] at hinsert
  exact hinsert.symm

lemma placeOf_contents (name : Text) (d : DocTree) :
    Content.placeOf name (d.entries.map (·.content)) = (d.position? name).getD d.contentEnd := by
  have hnamed : Content.isTagNamed name ∘ Entry.content = Entry.isTagNamed name :=
    funext (Entry.isTagNamed_content name)
  rw [Content.placeOf, List.findIdx?_map, hnamed, position?, contentEnd, List.rdropWhile,
    ← List.map_reverse, List.dropWhile_map, List.length_reverse, List.length_map]
  rfl

/-- The tag goes where it belongs among the entries of other names. -/
lemma entries_putTag (t : Tag Text) (d : DocTree) :
    let place := Content.placeOf t.name (d.entries.map (·.content))
    place ≤ (d.removeNamed t.name).entries.length ∧
      (d.putTag t).entries =
        (d.removeNamed t.name).entries.insertIdx place (.new (.tag (t.map .ofWritten))) := by
  intro place
  have hplace : place = (d.position? t.name).getD d.contentEnd := placeOf_contents t.name d
  rw [hplace, putTag]
  cases hp : d.position? t.name with
  | some p =>
    -- In front of the first tag of the name nothing is removed.
    have hle : p ≤ (d.removeNamed t.name).entries.length := by
      obtain ⟨hlt, hidx⟩ := List.findIdx?_eq_some_iff_findIdx_eq.mp hp
      have hfront : (d.entries.take p).filter (fun e => !e.isTagNamed t.name) = d.entries.take p :=
        List.filter_eq_self.mpr fun e he => by
          rw [← hidx] at he
          simp [List.false_of_mem_take_findIdx he]
      have := ((List.take_sublist p d.entries).filter fun e => !e.isTagNamed t.name).length_le
      rw [hfront, List.length_take_of_le hlt.le] at this
      exact this
    exact ⟨hle, entries_insertAt hle _⟩
  | none =>
    have hnone : (d.removeNamed t.name).entries = d.entries :=
      List.filter_eq_self.mpr fun e he => by simp [List.findIdx?_eq_none_iff.mp hp e he]
    have hle : d.contentEnd ≤ d.entries.length := by
      have hsuffix := (List.dropWhile_suffix (·.content.isBlank) (l := d.entries.reverse)).length_le
      rwa [List.length_reverse] at hsuffix
    rw [hnone]
    exact ⟨hle, entries_insertAt hle _⟩

/-- With the new tag on one line, each entry that is printed is read again as it would be alone. -/
lemma written_read_print_putTag {d : DocTree} {t : Tag Text} {source : Text}
    (husual : d.frame.IsUsual) (hkept : ∀ e ∈ d.entries, e.IsKept d.frame)
    (ht : (Entry.new (.tag (t.map .ofWritten))).IsOneLine) :
    (read ((d.putTag t).print source)).entries.map Entry.written =
      (d.putTag t).entries.map Entry.reread := by
  obtain ⟨hframe, es, fs, hentries, hothers⟩ := exists_entries_putTag t d
  refine written_read_print (hframe ▸ husual) (isUnchanged_of_new hentries)
    (isBlank_of_new hentries) fun e he => ?_
  rw [hentries] at he
  obtain rfl | he := List.mem_cons.mp (List.perm_middle.mem_iff.mp he)
  · exact .inr ⟨rfl, ht⟩
  · exact .inl (hframe ▸ (isKept_of_others hothers hkept e he).1)

end DocTree

/-! What a set of types is written as. -/

namespace TypeName
open TypeExpr Name

/-- The type that stands for a name in a tag. An alias and a reserved word are written as they are,
any other name with one backslash in front, and each `[]` behind it makes an array. -/
inductive IsWrittenAs : TypeName → TypeExpr Text → Prop
  | ofAlias (w : Text) : IsWrittenAs (.aliased w) (.name w)
  | ofReserved {w : Text} (k : Nat) (hw : lower w ∈ reservedWords) :
    IsWrittenAs (.plain (w ++ brackets k)) ((TypeExpr.name w).arrayed k)
  | ofClass {w : Text} (k : Nat) (hw : isName w) (hr : lower w ∉ reservedWords) :
    IsWrittenAs (.plain (w ++ brackets k)) ((TypeExpr.name (rooted w)).arrayed k)

lemma isWrittenAs_asType {n : TypeName} (h : n.IsListable) : n.IsWrittenAs n.asType := by
  obtain ⟨text, isAlias⟩ := n
  cases isAlias with
  | true => exact .ofAlias text
  | false =>
    obtain ⟨w, k, rfl, hw⟩ := h
    have hname : isName w := hw.elim (isName_of_mem_reservedWords w) id
    obtain ⟨hbare, hdepth⟩ := depth_of_append (n := ⟨w ++ brackets k, false⟩) rfl rfl hname
    have hreserved := isReserved_of_isWord (isWord_of_isName hname)
    rw [asType, hdepth, core, if_neg Bool.false_ne_true, hbare, absolutePart, hreserved]
    by_cases hr : lower w ∈ reservedWords
    · rw [if_pos (by simpa using hr)]
      exact .ofReserved k hr
    · rw [if_neg (by simpa using hr)]
      exact .ofClass k hname hr

end TypeName

namespace TypeSet

lemma solid_inTag {types : TypeSet} (h : ∀ n ∈ types.toList, n.IsListed) (hne : types.toList ≠ []) :
    Solid types.inTag := by
  obtain ⟨hproper, hnames⟩ := TypeExpr.isWritten_of_read (read_inTag h hne)
  rw [← render_asType h]
  exact TypeExpr.solid_render hproper fun n hn => TypeExpr.isWord_of_isName (hnames n hn)

end TypeSet

namespace DocSlot

variable {s : DocSlot} {types : TypeSet}

/-- Nothing but the looked up names is known of an entry that was read. -/
lemma content_eq_of_mem_tree {e : Entry} (he : e ∈ s.tree.entries) :
    e.content = e.written.lookedUp s.scope := by
  cases hs : s.text with
  | none =>
    rw [tree_of_none hs] at he
    cases he
  | some text =>
    rw [tree_of_some hs] at he
    obtain ⟨e₀, he₀, rfl⟩ := List.mem_map.mp he
    rw [Entry.written_mapContent (TypeRef.written_resolveIn s.scope), Content.lookedUp]
    dsimp only
    rw [DocTree.content_eq_of_mem_read he₀, Content.map_map]
    rfl

/-- An entry that is printed on its line is read with what it holds. -/
lemma lookedUp_reread {e : Entry} (he : e ∈ s.tree.entries) (hk : e.IsKept s.tree.frame) :
    e.reread.lookedUp s.scope = e.content := by
  rw [Entry.reread, if_pos hk.isUntouched, content_eq_of_mem_tree he]

/-- Setting a tag keeps all lines but the tags of its name. -/
lemma contents_setTag (hs : s.IsTidy) {t : Tag Text}
    (ht : (Entry.new (.tag (t.map .ofWritten))).IsOneLine) :
    let others := s.contents.filter (!·.isTagNamed t.name)
    let place := Content.placeOf t.name s.contents
    place ≤ others.length ∧ (s.setTag t).1.contents =
      others.insertIdx place ((Content.read t.render).lookedUp s.scope) := by
  intro others place
  obtain ⟨husual, hkept⟩ := isKept_tree hs
  obtain ⟨hle, hput⟩ := DocTree.entries_putTag t s.tree
  have hmem : ∀ e ∈ (s.tree.removeNamed t.name).entries, e ∈ s.tree.entries := fun e he =>
    (List.mem_filter.mp he).1
  have hothers : others = (s.tree.removeNamed t.name).entries.map (·.content) := by
    simp only [others, contents_eq, DocTree.removeNamed, List.filter_map, Function.comp_def,
      Entry.isTagNamed_content]
  have hplace : place = Content.placeOf t.name (s.tree.entries.map (·.content)) := by
    rw [← contents_eq]
  have hcontents : (s.setTag t).1.contents =
      (s.tree.putTag t).entries.map fun e => e.reread.lookedUp s.scope := by
    rw [setTag_eq_print hs, contents_eq, tree_of_some rfl, DocTree.contents_resolveIn_read,
      DocTree.written_read_print_putTag husual hkept ht, List.map_map]
    rfl
  have hsame : (s.tree.removeNamed t.name).entries.map (fun e => e.reread.lookedUp s.scope) =
      others := by
    rw [hothers]
    exact List.map_congr_left fun e he => lookedUp_reread (hmem e he) (hkept e (hmem e he))
  rw [hcontents, hput, List.map_insertIdx, hsame, Entry.reread_new_tag, hplace]
  refine ⟨?_, rfl⟩
  rwa [hothers, List.length_map]

lemma solid_typedTag (h : ∀ n ∈ types.toList, n.IsListed) (hne : types.toList ≠ []) :
    Solid (typedTag "@var" types.inTag).render := by
  refine Tag.solid_render (Content.solid_of_readTagName Tag.isTypeTag_var.reads) ?_
  rw [render_value_typedTag h hne]
  exact TypeSet.solid_inTag h hne

/-- A tag for names that are listed is one line. -/
lemma isOneLine_typedTag (h : ∀ n ∈ types.toList, n.IsListed) (hne : types.toList ≠ []) :
    (Entry.new (.tag ((typedTag "@var" types.inTag).map .ofWritten))).IsOneLine := by
  have hsolid := solid_typedTag h hne
  have hwritten : (Entry.new (.tag ((typedTag "@var" types.inTag).map .ofWritten))).written.render =
      (typedTag "@var" types.inTag).render := by
    rw [Entry.written_new_tag]
    rfl
  refine ⟨?_, ?_, ?_⟩
  · rw [hwritten]
    exact (isSteady_of_isListed h).isLine.noFeed
  · rw [hwritten]
    exact hsolid.trim_eq
  · rw [hwritten]
    exact fun hnil => absurd hnil hsolid.ne_nil

/-- Setting a tag for names that are listed keeps all lines but the `@var` tags. -/
lemma contents_setTag_inTag (hs : s.IsTidy) (h : ∀ n ∈ types.toList, n.IsListed)
    (hne : types.toList ≠ []) :
    let others := s.contents.filter (!·.isTagNamed "@var")
    let place := Content.placeOf "@var" s.contents
    place ≤ others.length ∧ (s.setTag (typedTag "@var" types.inTag)).1.contents =
      others.insertIdx place
        (Content.lookedUp s.scope (.tag ⟨"@var", .typed (.ofType types.asType)⟩)) := by
  have hread := read_render_typedTag h hne
  rw [(solid_typedTag h hne).trimEnd_eq] at hread
  obtain ⟨hle, hcontents⟩ := contents_setTag hs (isOneLine_typedTag h hne)
  rw [hread] at hcontents
  exact ⟨hle, hcontents⟩

/-- Setting the types of `@var` leaves every other line as it is. The tag takes the place of the
first `@var`, or stands behind the last line that is not blank, and lists the names of the set as
they are written, in their order. -/
theorem contents_changeVar (hs : s.IsTidy) (hl : ∀ n ∈ types.toList, n.IsListable)
    (hc : (s.changeVar types).2 = true) :
    let others := s.contents.filter (!·.isTagNamed "@var")
    let place := Content.placeOf "@var" s.contents
    ∃ parts, List.Forall₂ TypeName.IsWrittenAs types.toList parts ∧
      place ≤ others.length ∧ (s.changeVar types).1.scope = s.scope ∧
      (s.changeVar types).1.contents = others.insertIdx place
        (Content.lookedUp s.scope (.tag ⟨"@var", .typed (.ofType (.joined parts))⟩)) := by
  intro others place
  have hidle : ¬(types.isEmpty || s.listsVarTypes types) := by
    intro hidle
    rw [changeVar_of_idle hidle] at hc
    cases hc
  have hset : s.changeVar types = s.setTag (typedTag "@var" types.inTag) := if_neg hidle
  rw [Bool.or_eq_true, not_or, Bool.not_eq_true] at hidle
  obtain ⟨hle, hcontents⟩ := contents_setTag_inTag hs
    (fun n hn => TypeName.isListed (hl n hn)) (toList_ne_nil hidle.1)
  rw [hset]
  refine ⟨types.toList.map TypeName.asType, ?_, hle, ?_, hcontents⟩
  · rw [List.forall₂_map_right_iff, List.forall₂_same]
    exact fun n hn => TypeName.isWrittenAs_asType (hl n hn)
  · rw [setTag_eq_print hs]

-- Without a tag to replace, blank lines at the end stay at the end.
example :
    let s : DocSlot := ⟨some "/** Text.\n *\n */", none⟩
    Content.placeOf "@var" s.contents = 1 ∧ (s.changeVar (.ofNames ["int"])).1.text =
      some "/**\n * Text.\n * @var int\n *\n */".toList := by
  decide +kernel

/-- Every line of the comment then was there before, or is the tag that was set. -/
lemma mem_contents_changeVar (hs : s.IsTidy) (hl : ∀ n ∈ types.toList, n.IsListable)
    {c : Content TypeRef} (h : c ∈ (s.changeVar types).1.contents) :
    c ∈ s.contents ∨ types.toList ≠ [] ∧
      c = Content.lookedUp s.scope (.tag ⟨"@var", .typed (.ofType types.asType)⟩) := by
  rw [changeVar] at h
  split at h
  · exact .inl h
  · rename_i hidle
    rw [Bool.or_eq_true, not_or, Bool.not_eq_true] at hidle
    have hne := toList_ne_nil hidle.1
    obtain ⟨hle, hcontents⟩ := contents_setTag_inTag hs (fun n hn => TypeName.isListed (hl n hn)) hne
    rw [hcontents, List.mem_insertIdx hle] at h
    exact h.symm.imp (fun h => (List.mem_filter.mp h).1) (fun h => ⟨hne, h⟩)

/-- Of two tags the first is replaced and the second removed. -/
theorem contents_changeVar_two_tags :
    let s : DocSlot := ⟨some "/**\n * Text.\n * @var int\n * @see X\n * @var string\n *\n */", none⟩
    let types : TypeSet := .ofList [.plain "Foo[]", .plain "null", .aliased "T"]
    (s.changeVar types).1.text =
        some "/**\n * Text.\n * @var \\Foo[]|null|T\n * @see X\n *\n */".toList ∧
      ∃ parts, List.Forall₂ TypeName.IsWrittenAs types.toList parts ∧
        (s.changeVar types).1.contents = (s.contents.filter (!·.isTagNamed "@var")).insertIdx 1
          (Content.lookedUp none (.tag ⟨"@var", .typed (.ofType (.joined parts))⟩)) := by
  intro s types
  have htidy : s.IsTidy := by decide +kernel
  have hlistable : ∀ n ∈ types.toList, n.IsListable := by decide +kernel
  have hset : s.changeVar types =
      (⟨some "/**\n * Text.\n * @var \\Foo[]|null|T\n * @see X\n *\n */".toList, none⟩, true) := by
    decide +kernel
  have hplace : Content.placeOf "@var" s.contents = 1 := by decide +kernel
  obtain ⟨parts, hparts, -, -, hcontents⟩ :=
    contents_changeVar htidy hlistable (congrArg Prod.snd hset)
  rw [hplace] at hcontents
  exact ⟨congrArg (·.1.text) hset, parts, hparts, hcontents⟩

end DocSlot
end DocTypes
