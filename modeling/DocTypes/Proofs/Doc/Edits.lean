import DocTypes.Proofs.Doc.Printing

/-!
Runs of edits on a tree that was read. No edit invents a place in the source, so whatever is still
untouched at the end has a faithful line, and the printed comment is read as the edited tree.
-/
namespace DocTypes
open Text

namespace Entry

/-- The text of the entry is one line without white space at its ends, and reads as the entry. -/
structure IsPlain (e : Entry) : Prop where
  noFeed : '\n' ∉ e.written.render
  trimmed : trim e.written.render = e.written.render
  reads : Content.read e.written.render = e.written

instance (e : Entry) : Decidable e.IsPlain :=
  decidable_of_iff ('\n' ∉ e.written.render ∧ trim e.written.render = e.written.render ∧
      Content.read e.written.render = e.written)
    ⟨fun h => ⟨h.1, h.2.1, h.2.2⟩, fun h => ⟨h.1, h.2, h.3⟩⟩

lemma IsPlain.isOneLine {e : Entry} (h : e.IsPlain) : e.IsOneLine := by
  refine ⟨h.noFeed, h.trimmed, fun hnil => ?_⟩
  rw [← e.isBlank_written, ← h.reads, hnil]
  rfl

lemma reread_of_isPlain {e : Entry} (h : e.isUntouched ∨ e.IsPlain) : e.reread = e.written := by
  rw [reread]
  split
  · rfl
  · exact (h.resolve_left ‹_›).reads

end Entry

namespace DocTree

/-! Where the entries come from. -/

/-- The other tree has the same frame, and no place in the source but those of the first. -/
structure IsEditOf (d₀ d : DocTree) : Prop where
  frame : d.frame = d₀.frame
  readCount : d.readCount = d₀.readCount
  origin : ∀ e ∈ d.entries, ∀ o, e.origin = some o → ∃ e₀ ∈ d₀.entries, e₀.origin = some o

lemma isEditOf_refl (d : DocTree) : d.IsEditOf d :=
  ⟨rfl, rfl, fun e he _ ho => ⟨e, he, ho⟩⟩

/-- It is enough that every entry is new or has its origin from an entry before the edit. -/
lemma IsEditOf.step {d₀ d : DocTree} (h : d₀.IsEditOf d) {es : List Entry}
    (hes : ∀ e ∈ es, e.origin = none ∨ ∃ e' ∈ d.entries, e'.origin = e.origin) :
    d₀.IsEditOf { d with entries := es } := by
  refine ⟨h.frame, h.readCount, fun e he o ho => ?_⟩
  rcases hes e he with hn | ⟨e', he', heq⟩
  · exact absurd ho (by simp [hn])
  · exact h.origin e' he' o (heq.trans ho)

lemma IsEditOf.insertAt {d₀ d : DocTree} (h : d₀.IsEditOf d) (position : Nat) (t : Tag TypeRef) :
    d₀.IsEditOf (d.insertAt position t) := by
  refine h.step fun e he => ?_
  rcases List.mem_append.mp he with he | he
  · exact .inr ⟨e, List.mem_of_mem_take he, rfl⟩
  · rcases List.mem_cons.mp he with rfl | he
    · exact .inl rfl
    · exact .inr ⟨e, List.mem_of_mem_drop he, rfl⟩

lemma exists_read_eq_ofLines (s : Text) : ∃ f lines, read s = ofLines f lines := by
  rw [read]
  split
  · split
    · exact ⟨_, _, rfl⟩
    · exact ⟨_, _, rfl⟩
  · exact ⟨_, _, rfl⟩

/-- Nothing is known of the names that were just read. -/
lemma content_eq_of_mem_read {s : Text} {e : Entry} (he : e ∈ (read s).entries) :
    e.content = e.written.map .ofWritten := by
  obtain ⟨f, lines, hlines⟩ := exists_read_eq_ofLines s
  rw [hlines] at he
  obtain ⟨i, hi, rfl⟩ := List.mem_mapIdx.mp he
  rw [written_entry]
  rfl

/-- What the lines of a comment hold once their names are looked up. -/
lemma contents_resolveIn_read (scope : Option NameScope) (s : Text) :
    ((read s).resolveIn scope).entries.map (·.content) =
      ((read s).entries.map Entry.written).map
        (·.map fun w => (TypeRef.ofWritten w).resolveIn scope) := by
  rw [resolveIn, mapNames, mapContents, List.map_map, List.map_map]
  refine List.map_congr_left fun e he => ?_
  rw [Function.comp_apply, content_eq_of_mem_read he, Content.map_map]
  rfl

/-- An entry remembers its line and what was read from it. -/
lemma exists_line_of_origin {f : Frame} {lines : List SourceLine} {e : Entry}
    (he : e ∈ (ofLines f lines).entries) {o : Origin} (ho : e.origin = some o) :
    ∃ l, lines[o.index]? = some l ∧ o.line = l.line ∧ o.content = l.content := by
  obtain ⟨i, hi, rfl⟩ := List.mem_mapIdx.mp he
  cases ho
  exact ⟨lines[i], List.getElem?_eq_getElem hi, rfl, rfl⟩

/-- The entries of a tree that counts as unchanged hold what was read. -/
lemma written_of_isUnchanged {d₀ d : DocTree} {f : Frame} {lines : List SourceLine}
    (h₀ : d₀ = ofLines f lines) (h : d₀.IsEditOf d) (hu : d.isUnchanged) :
    d.entries.map Entry.written = d₀.entries.map Entry.written := by
  subst h₀
  simp only [isUnchanged, Bool.and_eq_true, beq_iff_eq, List.all_eq_true,
    List.mem_zipIdx_iff_getElem?, Prod.forall] at hu
  obtain ⟨hlen, hall⟩ := hu
  rw [written_ofLines]
  refine List.ext_getElem? fun i => ?_
  rw [List.getElem?_map, List.getElem?_map]
  cases he : d.entries[i]? with
  | none =>
    have hle := List.getElem?_eq_none_iff.mp he
    rw [hlen, h.readCount] at hle
    simp [List.getElem?_eq_none_iff.mpr (show lines.length ≤ i from hle)]
  | some e =>
    obtain ⟨hun, hidx⟩ := hall e i he
    obtain ⟨o, ho, hc⟩ := Entry.isUntouched_iff.mp hun
    rw [ho] at hidx
    obtain rfl : o.index = i := by simpa using hidx
    obtain ⟨e₀, he₀, ho₀⟩ := h.origin e (List.mem_of_getElem? he) o ho
    obtain ⟨l, hl, -, hlc⟩ := exists_line_of_origin he₀ ho₀
    rw [hl, Option.map_some, Option.map_some, ← hc, hlc]

lemma IsEditOf.isKept {d₀ d : DocTree} (h : d₀.IsEditOf d)
    (hk : ∀ e ∈ d₀.entries, e.IsKept d₀.frame) {e : Entry} (he : e ∈ d.entries)
    (hu : e.isUntouched) : e.IsKept d.frame := by
  obtain ⟨o, ho, hc⟩ := Entry.isUntouched_iff.mp hu
  obtain ⟨e₀, he₀, ho₀⟩ := h.origin e he o ho
  obtain ⟨o', ho', -, hf⟩ := hk e₀ he₀
  obtain rfl : o = o' := Option.some.inj (ho₀.symm.trans ho')
  exact ⟨o, ho, hc, h.frame ▸ hf⟩

end DocTree

/-- The edits that a tree offers. -/
inductive TreeEdit where
  | append (t : Tag TypeRef)
  | insertAt (position : Nat) (t : Tag TypeRef)
  | insertAfterContent (t : Tag TypeRef)
  | removeNamed (name : Text)
  | removeAt (position : Nat)
  | removeAll (unwanted : Entry → Bool)
  | swap (i j : Nat)
  /-- Other content for an entry that remembers its source line. -/
  | setContent (position : Nat) (content : Content TypeRef)
  /-- Another entry in the place of one. -/
  | replace (position : Nat) (content : Content TypeRef)

namespace TreeEdit

/-- An edit of a position that does not exist changes nothing. -/
def apply : TreeEdit → DocTree → DocTree
  | .append t, d => d.append t
  | .insertAt position t, d => d.insertAt position t
  | .insertAfterContent t, d => d.insertAfterContent t
  | .removeNamed name, d => d.removeNamed name
  | .removeAt position, d => (d.removeAt? position).getD d
  | .removeAll unwanted, d => { d with entries := d.entries.filter (!unwanted ·) }
  | .swap i j, d => (d.swap? i j).getD d
  | .setContent position content, d => (d.setContent? position content).getD d
  | .replace position content, d => { d with entries := d.entries.set position (.new content) }

def run (edits : List TreeEdit) (d : DocTree) : DocTree := edits.foldl (fun d e => e.apply d) d

/-- One edit adds no place in the source. -/
lemma isEditOf_apply {d₀ d : DocTree} (h : d₀.IsEditOf d) (edit : TreeEdit) :
    d₀.IsEditOf (edit.apply d) := by
  have keep : ∀ {e}, e ∈ d.entries → e.origin = none ∨ ∃ e' ∈ d.entries, e'.origin = e.origin :=
    fun he => .inr ⟨_, he, rfl⟩
  have fresh : ∀ c, (Entry.new c).origin = none ∨
      ∃ e' ∈ d.entries, e'.origin = (Entry.new c).origin := fun _ => .inl rfl
  cases edit with
  | append t =>
    refine h.step fun e he => ?_
    rcases List.mem_append.mp he with he | he
    · exact keep he
    · exact List.mem_singleton.mp he ▸ fresh _
  | insertAt position t => exact h.insertAt position t
  | insertAfterContent t => exact h.insertAt d.contentEnd t
  | removeNamed name => exact h.step fun e he => keep (List.mem_filter.mp he).1
  | removeAll unwanted => exact h.step fun e he => keep (List.mem_filter.mp he).1
  | removeAt position =>
    rw [apply, DocTree.removeAt?]
    split
    · exact h.step fun e he => keep (List.mem_of_mem_eraseIdx he)
    · exact h
  | swap i j =>
    rw [apply, DocTree.swap?]
    cases hi : d.entries[i]? with
    | none => exact h
    | some a =>
      cases hj : d.entries[j]? with
      | none => exact h
      | some b =>
        refine h.step fun e he => ?_
        rcases List.mem_or_eq_of_mem_set he with he | rfl
        · rcases List.mem_or_eq_of_mem_set he with he | rfl
          · exact keep he
          · exact keep (List.mem_of_getElem? hj)
        · exact keep (List.mem_of_getElem? hi)
  | setContent position content =>
    rw [apply, DocTree.setContent?]
    cases hp : d.entries[position]? with
    | none => exact h
    | some a =>
      refine h.step fun e he => ?_
      rcases List.mem_or_eq_of_mem_set he with he | rfl
      · exact keep he
      · exact .inr ⟨a, List.mem_of_getElem? hp, rfl⟩
  | replace position content =>
    refine h.step fun e he => ?_
    rcases List.mem_or_eq_of_mem_set he with he | rfl
    · exact keep he
    · exact fresh _

/-- By induction over the run. -/
lemma isEditOf_run {d₀ d : DocTree} (h : d₀.IsEditOf d) (edits : List TreeEdit) :
    d₀.IsEditOf (run edits d) := by
  induction edits generalizing d with
  | nil => exact h
  | cons edit edits ih => exact ih (isEditOf_apply h edit)

/-- Reading undoes printing, whatever was done to the tree in between, as long as every entry is
untouched or plain and not all of them are blank. -/
theorem written_read_print_run {text : Text} (hs : startsWith "/**" text)
    (hd : DocTree.isDocComment (trim text)) (edits : List TreeEdit)
    (h : ∀ e ∈ (run edits (.read text)).entries, e.isUntouched ∨ e.IsPlain)
    (hb : (run edits (.read text)).isBlank = false) :
    (DocTree.read ((run edits (.read text)).print text)).entries.map Entry.written =
      (run edits (.read text)).entries.map Entry.written := by
  have hedit := isEditOf_run (DocTree.isEditOf_refl (.read text)) edits
  obtain ⟨husual, hkept⟩ := DocTree.isUsual_read hs hd
  obtain ⟨f, lines, hlines⟩ := DocTree.exists_read_eq_ofLines text
  cases hu : (run edits (.read text)).isUnchanged with
  | true =>
    rw [DocTree.written_of_isUnchanged hlines hedit hu, DocTree.print, if_pos hu]
  | false =>
    rw [DocTree.written_read_print (hedit.frame ▸ husual) hu hb fun e he => ?_]
    · exact List.map_congr_left fun e he => Entry.reread_of_isPlain (h e he)
    · cases heu : e.isUntouched with
      | true => exact .inl (hedit.isKept hkept he heu)
      | false => exact .inr ⟨rfl, ((h e he).resolve_left (by simp [heu])).isOneLine⟩

/-- A run that moves, removes, replaces and adds entries of a comment without asterisks. -/
theorem written_read_print_run_mixed :
    (DocTree.read ((run [.swap 0 2, .removeAt 1, .replace 1 (.text "four"),
          .append ⟨"@return", .typed ⟨.name (.ofWritten "A"), none, "b"⟩⟩]
        (.read "/** One.\n  two\n  @var int three */")).print
          "/** One.\n  two\n  @var int three */")).entries.map Entry.written =
      (run [.swap 0 2, .removeAt 1, .replace 1 (.text "four"),
          .append ⟨"@return", .typed ⟨.name (.ofWritten "A"), none, "b"⟩⟩]
        (.read "/** One.\n  two\n  @var int three */")).entries.map Entry.written :=
  written_read_print_run (by decide) (by decide +kernel) _ (by decide +kernel) (by decide +kernel)

end TreeEdit
end DocTypes
