import DocTypes.Proofs.Doc.TypedTags
import DocTypes.Proofs.TypeExpr.Grammar

/-!
The ink of a line: what is left of its text without white space and parentheses. A line that is read
and printed again keeps its ink, and other names in its type take the place of the old ones in it.
-/
namespace DocTypes

/-- Whatever keeps concatenation keeps joined lists joined. -/
lemma apply_intercalate {α β : Type} {g : List α → List β} (hnil : g [] = [])
    (happend : ∀ s t, g (s ++ t) = g s ++ g t) (sep : List α) (ps : List (List α)) :
    g (sep.intercalate ps) = (g sep).intercalate (ps.map g) := by
  induction ps with
  | nil => exact hnil
  | cons p ps ih =>
    cases ps with
    | nil => simp [List.intercalate]
    | cons q qs =>
      rw [List.intercalate_cons_cons, happend, happend, ih]
      exact List.intercalate_cons_cons.symm

lemma nil_intercalate {α : Type} (ps : List (List α)) : [].intercalate ps = ps.flatten := by
  induction ps with
  | nil => rfl
  | cons p ps ih =>
    cases ps with
    | nil => rfl
    | cons q qs => simp [List.intercalate_cons_cons, ih]

namespace Text

/-- Neither white space nor a parenthesis. -/
def isInk (c : Char) : Bool := !isBlank c && c != '(' && c != ')'

def ink (s : Text) : Text := s.filter isInk

@[simp] lemma ink_nil : ink [] = [] := rfl

@[simp] lemma ink_append (s t : Text) : ink (s ++ t) = ink s ++ ink t := List.filter_append ..

lemma ink_cons {c : Char} (h : isInk c) (s : Text) : ink (c :: s) = c :: ink s :=
  List.filter_cons_of_pos h

@[simp] lemma ink_join (sep : Text) (ps : List Text) :
    ink (join sep ps) = join (ink sep) (ps.map ink) := apply_intercalate ink_nil ink_append sep ps

lemma ink_of_isAllBlank {s : Text} (h : isAllBlank s) : ink s = [] := by
  refine List.filter_eq_nil_iff.mpr fun c hc => ?_
  simp [isInk, isAllBlank_iff.mp h c hc]

@[simp] lemma ink_trimStart (s : Text) : ink (trimStart s) = ink s := by
  have hblank : isAllBlank (s.takeWhile isBlank) :=
    isAllBlank_iff.mpr fun c hc => List.mem_takeWhile_imp hc
  conv_rhs => rw [← List.takeWhile_append_dropWhile (p := isBlank) (l := s), ink_append,
    ink_of_isAllBlank hblank]
  rfl

@[simp] lemma ink_trimEnd (s : Text) : ink (trimEnd s) = ink s := by
  obtain ⟨b, hb, hs⟩ := exists_trimEnd_append_blank s
  conv_rhs => rw [hs, ink_append, ink_of_isAllBlank hb, List.append_nil]

@[simp] lemma ink_trim (s : Text) : ink (trim s) = ink s := by rw [trim, ink_trimEnd, ink_trimStart]

/-- The ink of marks with names between them, when `f` tells how the names are written. -/
def inkOf {ν : Type} (f : ν → Text) (ts : List (Char ⊕ ν)) : Text :=
  ts.flatMap (Sum.elim ([·]) (ink ∘ f))

@[simp] lemma inkOf_append {ν : Type} (f : ν → Text) (ts us : List (Char ⊕ ν)) :
    inkOf f (ts ++ us) = inkOf f ts ++ inkOf f us := List.flatMap_append ..

@[simp] lemma inkOf_map_inl {ν : Type} (f : ν → Text) (s : Text) : inkOf f (s.map .inl) = s := by
  induction s with
  | nil => rfl
  | cons c s ih => exact congrArg (c :: ·) ih

end Text
open Text

namespace TypeExpr

@[simp] lemma ink_parenthesizedIf (b : Bool) (s : Text) : ink (parenthesizedIf b s) = ink s := by
  cases b with
  | true =>
    have hopen : ink ('(' :: s) = ink s := List.filter_cons_of_neg (by decide)
    have hclose : ink ")" = [] := by decide
    rw [parenthesizedIf, if_pos rfl, ink_append, hopen, hclose, List.append_nil]
  | false => rfl

/-- Printing a type may move white space and parentheses, and nothing else. -/
lemma Derives.ink_render {l : Level} {s : Text} {t : TypeExpr Text} (h : Derives l s t) :
    ink t.render = ink s := by
  have hmembers : ∀ ps : List (Text × TypeExpr Text), (∀ p ∈ ps, ink p.2.render = ink p.1) →
      (renderMembers (ps.map Prod.snd)).map ink = (ps.map Prod.fst).map ink := by
    intro ps hps
    rw [renderMembers_eq, List.map_map, List.map_map, List.map_map]
    exact List.map_congr_left fun p hp => by simp [hps p hp]
  induction h with
  | member _ ih => exact ih
  | union _ _ ih => rw [render, ink_join, ink_join, hmembers _ ih]
  | spaced before behind _ ih => simp [ih, ink_of_isAllBlank before, ink_of_isAllBlank behind]
  | part _ ih => exact ih
  | intersection _ _ _ ih => rw [render, ink_join, ink_join, hmembers _ ih]
  | bare _ ih => exact ih
  | array _ _ ih => rw [render, ink_append, ink_append, ink_parenthesizedIf, ih]
  | nullable _ ih => rw [render, ink_cons (by decide), ink_cons (by decide), ih]
  | @parenthesized s t _ ih => exact ih.trans (ink_parenthesizedIf true s).symm
  | name => rfl
  | @generic b ps _ _ _ ih =>
    have hargs : (renderArgs (ps.map Prod.snd)).map ink = (ps.map Prod.fst).map ink := by
      rw [renderArgs_eq, List.map_map, List.map_map, List.map_map]
      exact List.map_congr_left fun p hp => ih p hp
    have hcomma : ink ", " = ink "," := by decide
    have hangle : isInk '<' := by decide
    simp only [render, ink_append, ink_cons hangle, ink_join, hargs, hcomma]

variable {ν : Type}

mutual

/-- The marks and the names from left to right, without the parentheses. -/
def tokens : TypeExpr ν → List (Char ⊕ ν)
  | .name n => [.inr n]
  | .nullable t => .inl '?' :: tokens t
  | .array t => tokens t ++ [.inl '[', .inl ']']
  | .union ts => [Sum.inl '|'].intercalate (tokensList ts)
  | .intersection ts => [Sum.inl '&'].intercalate (tokensList ts)
  | .generic b ts => [.inr b, .inl '<'] ++ [Sum.inl ','].intercalate (tokensList ts) ++ [.inl '>']

def tokensList : List (TypeExpr ν) → List (List (Char ⊕ ν))
  | [] => []
  | t :: ts => tokens t :: tokensList ts

end

lemma tokensList_eq (ts : List (TypeExpr ν)) : tokensList ts = ts.map tokens := by
  induction ts with
  | nil => rfl
  | cons t ts ih => simp [tokensList, ih]

/-- The names among the marks are the names of the type. -/
lemma filterMap_tokens (t : TypeExpr ν) : t.tokens.filterMap Sum.getRight? = t.names := by
  have hlist : ∀ (mark : Char) (ts : List (TypeExpr ν)),
      (∀ t ∈ ts, t.tokens.filterMap Sum.getRight? = t.names) →
      ([Sum.inl mark].intercalate (tokensList ts)).filterMap Sum.getRight? = namesList ts := by
    intro mark ts h
    rw [apply_intercalate List.filterMap_nil fun _ _ => List.filterMap_append, tokensList_eq,
      List.map_map, namesList_eq, ← List.flatMap_congr h]
    exact nil_intercalate _
  induction t with
  | name n => rfl
  | nullable t ih => exact ih
  | array t ih => simp [tokens, names, ih]
  | union ts ih => exact hlist _ ts ih
  | intersection ts ih => exact hlist _ ts ih
  | generic b ts ih =>
    rw [tokens, List.filterMap_append, List.filterMap_append, hlist ',' ts ih]
    exact congrArg (b :: ·) (List.append_nil _)

/-- The ink of a type shows its marks and names. -/
lemma ink_render_map (f : ν → Text) (t : TypeExpr ν) : ink (t.map f).render = inkOf f t.tokens := by
  have hlist : ∀ (mark : Char) (ts : List (TypeExpr ν)),
      (∀ t ∈ ts, ink (t.map f).render = inkOf f t.tokens) →
      join [mark] ((mapList f ts).map fun t => ink t.render) =
        inkOf f ([Sum.inl mark].intercalate (tokensList ts)) := by
    intro mark ts h
    rw [apply_intercalate (g := inkOf f) rfl (inkOf_append f), tokensList_eq, mapList_eq,
      List.map_map, List.map_map]
    exact congrArg _ (List.map_congr_left h)
  induction t with
  | name n => simp [map, render, tokens, inkOf]
  | nullable t ih =>
    rw [map, render, ink_cons (by decide), ih]
    rfl
  | array t ih =>
    rw [map, render, tokens, ink_append, ink_parenthesizedIf, ih, inkOf_append]
    rfl
  | union ts ih =>
    rw [map, render, ink_join, renderMembers_eq, List.map_map, tokens, ← hlist _ ts ih]
    exact congrArg _ (List.map_congr_left fun t _ => ink_parenthesizedIf ..)
  | intersection ts ih =>
    rw [map, render, ink_join, renderMembers_eq, List.map_map, tokens, ← hlist _ ts ih]
    exact congrArg _ (List.map_congr_left fun t _ => ink_parenthesizedIf ..)
  | generic b ts ih =>
    have hangle : isInk '<' := by decide
    have hcomma : ink ", " = "," := by decide
    rw [map, render, renderArgs_eq, ink_append, ink_append, ink_cons hangle, ink_join, hcomma,
      List.map_map, tokens, inkOf_append, inkOf_append, ← hlist ',' ts ih]
    simp [inkOf]
    rfl

end TypeExpr

variable {ν : Type}

namespace TypedValue

lemma ink_render (v : TypedValue Text) :
    ink v.render = ink v.type.render ++ ink (v.variableName.getD [] ++ v.description) := by
  have hblank : ∀ s : Text, ink (' ' :: s) = ink s := fun s => List.filter_cons_of_neg (by decide)
  obtain ⟨type, variableName, description⟩ := v
  cases variableName <;> cases description <;> simp [render, hblank]

/-- What stands behind a tag name keeps its ink when it is read. -/
lemma ink_read (s : Text) : ink (read s).render = ink s := by
  rw [read]
  split
  · exact ink_trim s
  · rename_i t rest hread
    obtain ⟨p, hp, hd, -⟩ := TypeExpr.consumes_readPrefix hread
    have hs : ink s = ink t.render ++ ink (trimStart rest) := by
      rw [← ink_trim, hp, ink_append, hd.ink_render, ink_trimStart]
    rw [hs]
    dsimp only
    split
    · rw [TagValue.render, ink_render]
      dsimp only [Option.getD_some]
      rw [ink_append, ink_trim, ← ink_append, List.takeWhile_append_dropWhile]
    · rw [TagValue.render, ink_render]
      rfl

end TypedValue

/-- The marks and the names of a value from left to right. -/
def TagValue.tokens : TagValue ν → List (Char ⊕ ν)
  | .typed v => v.type.tokens ++ (ink (v.variableName.getD [] ++ v.description)).map .inl
  | .plain s => (ink s).map .inl
  | .malformed s => (ink s).map .inl

lemma Tag.ink_render (t : Tag Text) : ink t.render = ink t.name ++ ink t.value.render := by
  rw [render]
  split
  · rename_i h
    rw [h, ink_nil, List.append_nil]
  · rename_i r h
    rw [h, ink_append]
  · rename_i c r hc h
    rw [h, ink_append]
    exact congrArg _ (List.filter_cons_of_neg (by decide))

namespace Content

/-- The marks and the names of a line from left to right. -/
def tokens : Content ν → List (Char ⊕ ν)
  | .text s => (ink s).map .inl
  | .tag t => (ink t.name).map .inl ++ t.value.tokens

lemma filterMap_map_inl (s : Text) :
    (s.map (Sum.inl : Char → Char ⊕ ν)).filterMap Sum.getRight? = [] := by
  simp [List.filterMap_eq_nil_iff]

/-- The names among the marks are the names of the line. -/
lemma filterMap_tokens (c : Content ν) : c.tokens.filterMap Sum.getRight? = c.names := by
  cases c with
  | text s => exact filterMap_map_inl _
  | tag t =>
    obtain ⟨name, value⟩ := t
    rw [tokens, List.filterMap_append, filterMap_map_inl, List.nil_append]
    cases value with
    | typed v =>
      rw [TagValue.tokens, List.filterMap_append, filterMap_map_inl, List.append_nil,
        TypeExpr.filterMap_tokens]
      rfl
    | plain s => exact filterMap_map_inl _
    | malformed s => exact filterMap_map_inl _

/-- The ink of a line shows its marks and names. -/
lemma ink_render_map (f : ν → Text) (c : Content ν) : ink (c.map f).render = inkOf f c.tokens := by
  cases c with
  | text s => exact (inkOf_map_inl f _).symm
  | tag t =>
    obtain ⟨name, value⟩ := t
    rw [map, render, Tag.ink_render, tokens, inkOf_append, inkOf_map_inl]
    refine congrArg (ink name ++ ·) ?_
    cases value with
    | typed v =>
      rw [TagValue.tokens, inkOf_append, inkOf_map_inl, ← TypeExpr.ink_render_map]
      exact TypedValue.ink_render _
    | plain s => exact (inkOf_map_inl f _).symm
    | malformed s => exact (inkOf_map_inl f _).symm

/-- The value of a tag has the ink of what stood behind the name. -/
lemma ink_value_of_read {c : Text} {t : Tag Text} (h : read c = .tag t) :
    ∃ rest, c = t.name ++ rest ∧ ink t.value.render = ink rest := by
  obtain ⟨rest, hname, hvalue⟩ := exists_of_read_tag h
  refine ⟨rest, append_of_readTagName hname, ?_⟩
  rw [hvalue]
  split
  · exact TypedValue.ink_read rest
  · exact ink_trim rest

/-- What was read and is printed again has the ink of the line. Another tag name takes the place of
the old one in front of the ink of the rest, and other names in the type take the places where the
old ones stood. -/
theorem ink_render_read (c : Text) :
    ink (read c).render = ink c ∧
    (∀ t, read c = .tag t → ∃ rest, c = t.name ++ rest ∧
      ∀ name, ink (Tag.render { t with name }) = ink name ++ ink rest) ∧
    ∀ r : Content (Text × Text), r.map Prod.fst = read c → ∃ ts : List (Char ⊕ (Text × Text)),
      ts.filterMap Sum.getRight? = r.names ∧ inkOf Prod.fst ts = ink c ∧
        inkOf Prod.snd ts = ink (r.map Prod.snd).render := by
  have hrenamed : ∀ t, read c = .tag t → ∃ rest, c = t.name ++ rest ∧
      ∀ name, ink (Tag.render { t with name }) = ink name ++ ink rest := by
    intro t h
    obtain ⟨rest, hc, hvalue⟩ := ink_value_of_read h
    exact ⟨rest, hc, fun name => (Tag.ink_render _).trans (congrArg (ink name ++ ·) hvalue)⟩
  have hread : ink (read c).render = ink c := by
    cases h : read c with
    | text s =>
      rw [read] at h
      split at h
      · obtain rfl := Content.text.inj h
        rfl
      · cases h
    | tag t =>
      obtain ⟨rest, hc, hname⟩ := hrenamed t h
      rw [hc, ink_append]
      exact hname t.name
  refine ⟨hread, hrenamed, fun r hr => ⟨r.tokens, filterMap_tokens r, ?_, ?_⟩⟩
  · rw [← ink_render_map, hr, hread]
  · rw [ink_render_map]

/-- A union in parentheses with white space inside, an argument in brackets, a variable by reference
and a description in parentheses: one name becomes another, and so does the tag. -/
theorem ink_render_read_renamed :
    let c : Text := "@param  ( A|list< B ,?A[]> )  &...$a  (the  note )"
    let r : Content (Text × Text) := .tag ⟨"@param", .typed ⟨.union [.name ("A", "A"),
      .generic ("list", "list") [.name ("B", "C\\D"), .nullable (.array (.name ("A", "A")))]],
      some "&...$a", "(the  note )"⟩⟩
    let t : Tag Text := ⟨"@param", .typed ⟨.union [.name "A",
      .generic "list" [.name "B", .nullable (.array (.name "A"))]], some "&...$a", "(the  note )"⟩⟩
    read c = .tag t ∧ r.map Prod.fst = read c ∧
    ink c = "@paramA|list<B,?A[]>&...$athenote" ∧
    (∃ rest, c = t.name ++ rest ∧
      ∀ name, ink (Tag.render { t with name }) = ink name ++ ink rest) ∧
    (r.map Prod.snd).render = "@param A|list<C\\D, ?A[]> &...$a (the  note )" ∧
    ∃ ts : List (Char ⊕ (Text × Text)), ts.filterMap Sum.getRight? = r.names ∧
      inkOf Prod.fst ts = ink c ∧ inkOf Prod.snd ts = ink (r.map Prod.snd).render := by
  intro c r t
  have hread : read c = .tag t := by decide +kernel
  have hr : r.map Prod.fst = read c := by decide +kernel
  exact ⟨hread, hr, by decide +kernel, (ink_render_read c).2.1 t hread, by decide +kernel,
    (ink_render_read c).2.2 r hr⟩

end Content
end DocTypes
