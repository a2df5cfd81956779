import DocTypes.Proofs.TypeExpr.Pieces

/-!
The pieces of a type put together again give its text, its names in their order, and the type
itself exactly where it is grouped.
-/
namespace DocTypes

namespace Text

lemma join_cons (sep p : Text) (ps : List Text) :
    join sep (p :: ps) = p ++ ps.flatMap (sep ++ ·) := by
  induction ps generalizing p with
  | nil => simp [join]
  | cons q qs ih => rw [join_cons_cons, ih, List.flatMap_cons, ← List.append_assoc]; simp

lemma join_append (sep : Text) {ps qs : List Text} (hp : ps ≠ []) (hq : qs ≠ []) :
    join sep (ps ++ qs) = join sep ps ++ sep ++ join sep qs := by
  obtain ⟨p, ps, rfl⟩ := List.exists_cons_of_ne_nil hp
  obtain ⟨q, qs, rfl⟩ := List.exists_cons_of_ne_nil hq
  simp [join_cons]

lemma join_concat (sep p : Text) (ps : List Text) :
    join sep (ps ++ [p]) = ps.flatMap (· ++ sep) ++ p := by
  induction ps with
  | nil => simp [join]
  | cons q qs ih =>
    rw [← List.singleton_append, List.append_assoc, join_append sep (by simp) (by simp), ih]
    simp [join]

lemma length_le_length_join (sep : Text) {p : Text} {ps : List Text} (h : p ∈ ps) :
    p.length ≤ (join sep ps).length := by
  induction ps with
  | nil => simp at h
  | cons q qs ih =>
    rcases List.mem_cons.mp h with rfl | h
    · simp [join_cons]
    · have hq : qs ≠ [] := List.ne_nil_of_mem h
      have ih := ih h
      rw [← List.singleton_append, join_append sep (by simp) hq]
      simp only [List.length_append]
      omega

lemma mem_join_iff_of_notMem {sep : Text} {c : Char} (hc : c ∉ sep) {ps : List Text} :
    c ∈ join sep ps ↔ ∃ p ∈ ps, c ∈ p := by
  cases ps with
  | nil => simp [join]
  | cons p ps => simp [join_cons, hc]

lemma mem_of_mem_splitOn {mark c : Char} {s p : Text} (hp : p ∈ splitOn mark s) (hc : c ∈ p) :
    c ∈ s ∨ c = mark := by
  by_cases h : c = mark
  · exact .inr h
  · rw [← join_splitOn mark s]
    exact .inl ((mem_join_iff_of_notMem (by simpa using h)).mpr ⟨p, hp, hc⟩)

end Text

namespace TypeExpr
open Piece

/-- There is a group, and no group is empty. -/
def Full (gs : List (List Piece)) : Prop := gs ≠ [] ∧ ∀ g ∈ gs, g ≠ []

lemma full_singleton (p : Piece) : Full [[p]] := by simp [Full]

lemma Full.append {gs hs : List (List Piece)} (hg : Full gs) (hh : Full hs) : Full (gs ++ hs) := by
  refine ⟨by simp [hg.1], fun g h => ?_⟩
  exact (List.mem_append.mp h).elim (hg.2 g) (hh.2 g)

lemma Full.wrapIf {gs : List (List Piece)} (h : Full gs) (b : Bool) : Full (wrapIf b gs) := by
  cases b
  · exact h
  · exact full_singleton _

lemma Full.exists_cons {gs : List (List Piece)} (h : Full gs) :
    ∃ p g gs', gs = (p :: g) :: gs' := by
  obtain ⟨g, gs, rfl⟩ := List.exists_cons_of_ne_nil h.1
  obtain ⟨p, g, rfl⟩ := List.exists_cons_of_ne_nil (h.2 g (by simp))
  exact ⟨p, g, gs, rfl⟩

lemma Full.flatten_ne_nil {gs : List (List Piece)} (h : Full gs) : gs.flatten ≠ [] := by
  obtain ⟨p, g, gs, rfl⟩ := h.exists_cons
  simp

lemma Full.onFirst {gs : List (List Piece)} (h : Full gs) (f : Piece → Piece) :
    Full (onFirst f gs) := by
  obtain ⟨p, g, gs, rfl⟩ := h.exists_cons
  refine ⟨by simp [Piece.onFirst], fun g' hg' => ?_⟩
  rcases List.mem_cons.mp hg' with rfl | hg'
  · simp
  · exact h.2 g' (by simp [hg'])

@[simp] lemma wholeText_singleton (p : Piece) : wholeText [[p]] = p.text := by
  simp [wholeText, jointText, Text.join]

@[simp] lemma wholeType_singleton (p : Piece) : wholeType [[p]] = p.type := rfl

@[simp] lemma wholeReadable_singleton (p : Piece) : wholeReadable [[p]] = p.readable := by
  simp [wholeReadable, jointReadable]

lemma wholeText_wrapIf (b : Bool) (gs : List (List Piece)) :
    wholeText (wrapIf b gs) = parenthesizedIf b (wholeText gs) := by
  cases b
  · rfl
  · exact wholeText_singleton _

@[simp] lemma wholeType_wrapIf (b : Bool) (gs : List (List Piece)) :
    wholeType (wrapIf b gs) = wholeType gs := by cases b <;> rfl

@[simp] lemma wholeReadable_wrapIf (b : Bool) (gs : List (List Piece)) :
    wholeReadable (wrapIf b gs) = wholeReadable gs := by
  cases b
  · rfl
  · exact wholeReadable_singleton _

/-! Gluing. -/

@[simp] lemma glue_nil (gs : List (List Piece)) : glue gs [] = gs := by
  unfold glue
  rfl

lemma flatten_glue (gs hs : List (List Piece)) :
    (glue gs hs).flatten = gs.flatten ++ hs.flatten := by
  fun_induction glue gs hs with
  | case1 gs => simp
  | case2 hs _ => simp
  | case3 g h hs => simp
  | case4 g g' gs hs _ ih => simp_all

lemma Full.glue {gs hs : List (List Piece)} (hg : Full gs) (hh : Full hs) : Full (glue gs hs) := by
  fun_induction Piece.glue gs hs with
  | case1 gs => exact hg
  | case2 hs _ => exact hh
  | case3 g h hs =>
    refine ⟨by simp, fun g' hg' => ?_⟩
    rcases List.mem_cons.mp hg' with rfl | hg'
    · simp [hg.2 g (by simp)]
    · exact hh.2 g' (by simp [hg'])
  | case4 g g' gs hs _ ih =>
    obtain ⟨-, h⟩ := ih ⟨by simp, fun g'' h => hg.2 g'' (by simp_all)⟩ hh
    refine ⟨by simp, fun g'' hg'' => ?_⟩
    rcases List.mem_cons.mp hg'' with rfl | hg''
    · exact hg.2 g'' (by simp)
    · exact h g'' hg''

lemma jointText_append {g h : List Piece} (hg : g ≠ []) (hh : h ≠ []) :
    jointText (g ++ h) = jointText g ++ '&' :: jointText h := by
  simp [jointText, Text.join_append, hg, hh]

lemma wholeText_cons (g : List Piece) (gs : List (List Piece)) :
    wholeText (g :: gs) = jointText g ++ gs.flatMap fun h => '|' :: jointText h := by
  simp [wholeText, Text.join_cons, List.flatMap_map]

lemma jointText_cons (p : Piece) (g : List Piece) :
    jointText (p :: g) = p.text ++ g.flatMap fun q => '&' :: q.text := by
  simp [jointText, Text.join_cons, List.flatMap_map]

lemma wholeText_append {gs hs : List (List Piece)} (hg : gs ≠ []) (hh : hs ≠ []) :
    wholeText (gs ++ hs) = wholeText gs ++ '|' :: wholeText hs := by
  simp [wholeText, Text.join_append, hg, hh]

lemma wholeText_glue {gs hs : List (List Piece)} (hg : Full gs) (hh : Full hs) :
    wholeText (glue gs hs) = wholeText gs ++ '&' :: wholeText hs := by
  fun_induction glue gs hs with
  | case1 gs => exact absurd rfl hh.1
  | case2 hs _ => exact absurd rfl hg.1
  | case3 g h hs =>
    rw [wholeText_cons, wholeText_cons, wholeText_cons,
      jointText_append (hg.2 g (by simp)) (hh.2 h (by simp))]
    simp
  | case4 g g' gs hs _ ih =>
    have hg' : Full (g' :: gs) := ⟨by simp, fun k hk => hg.2 k (by simp_all)⟩
    rw [← List.singleton_append, wholeText_append (by simp) (hg'.glue hh).1, ih hg' hh,
      ← List.singleton_append (l := g' :: gs), wholeText_append (by simp) hg'.1]
    simp

/-! Members put behind each other. -/

/-- A way to put groups behind each other, with a mark in between. -/
structure Combines (mark : Text)
    (combine : List (List Piece) → List (List Piece) → List (List Piece)) : Prop where
  nil : ∀ gs, combine gs [] = gs
  flatten : ∀ gs hs, (combine gs hs).flatten = gs.flatten ++ hs.flatten
  full : ∀ {gs hs}, Full gs → Full hs → Full (combine gs hs)
  text : ∀ {gs hs}, Full gs → Full hs →
    wholeText (combine gs hs) = wholeText gs ++ mark ++ wholeText hs

lemma combines_append : Combines "|" (· ++ ·) where
  nil := List.append_nil
  flatten _ _ := List.flatten_append
  full := .append
  text hg hh := by simp [wholeText_append hg.1 hh.1]

lemma combines_glue : Combines "&" glue where
  nil := glue_nil
  flatten := flatten_glue
  full := .glue
  text hg hh := by simp [wholeText_glue hg hh]

namespace Combines

variable {mark : Text} {combine : List (List Piece) → List (List Piece) → List (List Piece)}
  {members : List (List (List Piece))}

lemma flatten_foldr (hc : Combines mark combine) :
    (members.foldr combine []).flatten = members.flatMap List.flatten := by
  induction members with
  | nil => rfl
  | cons gs members ih => rw [List.foldr_cons, hc.flatten, ih, List.flatMap_cons]

lemma full_foldr (hc : Combines mark combine) (h : ∀ gs ∈ members, Full gs) (hne : members ≠ []) :
    Full (members.foldr combine []) := by
  induction members with
  | nil => exact absurd rfl hne
  | cons gs members ih =>
    rw [List.forall_mem_cons] at h
    cases members with
    | nil => simpa [hc.nil] using h.1
    | cons hs members => exact hc.full h.1 (ih h.2 (List.cons_ne_nil _ _))

lemma wholeText_foldr (hc : Combines mark combine) (h : ∀ gs ∈ members, Full gs) :
    wholeText (members.foldr combine []) = Text.join mark (members.map wholeText) := by
  induction members with
  | nil => rfl
  | cons gs members ih =>
    rw [List.forall_mem_cons] at h
    cases members with
    | nil => simp [hc.nil, Text.join]
    | cons hs members =>
      rw [List.foldr_cons, hc.text h.1 (hc.full_foldr h.2 (List.cons_ne_nil _ _)), ih h.2,
        List.map_cons, List.map_cons, List.map_cons, Text.join_cons_cons]

end Combines

/-! What the pieces of a type amount to. -/

lemma unionPieces_eq_foldr (ts : List (TypeExpr Text)) :
    unionPieces ts = (ts.map memberPieces).foldr (· ++ ·) [] := by
  induction ts with
  | nil => rfl
  | cons t ts ih => rw [unionPieces, ih, List.map_cons, List.foldr_cons, memberPieces]

lemma intersectionPieces_eq_foldr (ts : List (TypeExpr Text)) :
    intersectionPieces ts = (ts.map memberPieces).foldr glue [] := by
  induction ts with
  | nil => rfl
  | cons t ts ih => rw [intersectionPieces, ih, List.map_cons, List.foldr_cons, memberPieces]

lemma flatten_unionPieces (ts : List (TypeExpr Text)) :
    (unionPieces ts).flatten = ts.flatMap fun t => (memberPieces t).flatten := by
  rw [unionPieces_eq_foldr, combines_append.flatten_foldr, List.flatMap_map]

lemma flatten_intersectionPieces (ts : List (TypeExpr Text)) :
    (intersectionPieces ts).flatten = ts.flatMap fun t => (memberPieces t).flatten := by
  rw [intersectionPieces_eq_foldr, combines_glue.flatten_foldr, List.flatMap_map]

section
variable {ts : List (TypeExpr Text)} (h : ∀ t ∈ ts, Full (memberPieces t))
include h

lemma unionPieces_full (hne : ts ≠ []) : Full (unionPieces ts) := by
  rw [unionPieces_eq_foldr]
  exact combines_append.full_foldr (List.forall_mem_map.mpr h) (by simpa using hne)

lemma intersectionPieces_full (hne : ts ≠ []) : Full (intersectionPieces ts) := by
  rw [intersectionPieces_eq_foldr]
  exact combines_glue.full_foldr (List.forall_mem_map.mpr h) (by simpa using hne)

lemma wholeText_unionPieces :
    wholeText (unionPieces ts) = Text.join "|" (ts.map fun t => wholeText (memberPieces t)) := by
  rw [unionPieces_eq_foldr, combines_append.wholeText_foldr (List.forall_mem_map.mpr h),
    List.map_map]
  rfl

lemma wholeText_intersectionPieces :
    wholeText (intersectionPieces ts) =
      Text.join "&" (ts.map fun t => wholeText (memberPieces t)) := by
  rw [intersectionPieces_eq_foldr, combines_glue.wholeText_foldr (List.forall_mem_map.mpr h),
    List.map_map]
  rfl

end

lemma pieces_full (t : TypeExpr Text) (h : t.isProper) : Full (pieces t) := by
  induction t with
  | name n => exact full_singleton _
  | nullable t ih => exact (ih h).onFirst _
  | array t ih => exact full_singleton _
  | union ts ih =>
    rw [isProper_union] at h
    exact unionPieces_full (fun t ht => (ih t ht (h.2 t ht)).wrapIf _)
      (List.ne_nil_of_length_pos (by omega))
  | intersection ts ih =>
    rw [isProper_intersection] at h
    exact intersectionPieces_full (fun t ht => (ih t ht (h.2 t ht)).wrapIf _)
      (List.ne_nil_of_length_pos (by omega))
  | generic b ts ih => exact full_singleton _

lemma memberPieces_full {t : TypeExpr Text} (h : t.isProper) : Full (memberPieces t) :=
  (pieces_full t h).wrapIf _

lemma wholeText_onFirst_optional {gs : List (List Piece)} (h : Full gs) :
    wholeText (onFirst optional gs) = '?' :: wholeText gs := by
  obtain ⟨p, g, gs, rfl⟩ := h.exists_cons
  simp [onFirst, Piece.optional, wholeText_cons, jointText_cons]

lemma map_wholeText_memberPieces {ts : List (TypeExpr Text)}
    (h : ∀ t ∈ ts, wholeText (pieces t) = t.render) :
    (ts.map fun t => wholeText (memberPieces t)) = renderMembers ts := by
  rw [renderMembers_eq]
  refine List.map_congr_left fun t ht => ?_
  rw [memberPieces, wholeText_wrapIf, h t ht]

/-- The pieces make up the printed type. -/
theorem wholeText_pieces (t : TypeExpr Text) (h : t.isProper) :
    wholeText (pieces t) = t.render := by
  induction t with
  | name n => rw [pieces, wholeText_singleton, render]
  | nullable t ih => rw [pieces, wholeText_onFirst_optional (pieces_full t h), ih h, render]
  | array t ih => rw [pieces, wholeText_singleton, bracketed, wholeText_wrapIf, ih h, render]
  | union ts ih =>
    rw [isProper_union] at h
    rw [pieces, wholeText_unionPieces fun t ht => memberPieces_full (h.2 t ht), render,
      map_wholeText_memberPieces fun t ht => ih t ht (h.2 t ht)]
  | intersection ts ih =>
    rw [isProper_intersection] at h
    rw [pieces, wholeText_intersectionPieces fun t ht => memberPieces_full (h.2 t ht), render,
      map_wholeText_memberPieces fun t ht => ih t ht (h.2 t ht)]
  | generic b ts ih =>
    rw [isProper_generic] at h
    have ha : (argPieces ts).map wholeText = ts.map render := by
      rw [argPieces_eq, List.map_map]
      exact List.map_congr_left fun t ht => ih t ht (h.2 t ht)
    rw [pieces, wholeText_singleton, applied, ha, render, renderArgs_eq]

lemma wholeText_memberPieces {t : TypeExpr Text} (h : t.isProper) :
    wholeText (memberPieces t) = renderMember t := by
  rw [memberPieces, wholeText_wrapIf, wholeText_pieces t h, renderMember]

/-! Names. -/

lemma names_jointType (g : List Piece) :
    (jointType g).names = g.flatMap fun p => p.type.names := by
  unfold jointType
  split
  · simp
  · simp [names, namesList_eq, List.flatMap_map]

lemma names_wholeType (gs : List (List Piece)) :
    (wholeType gs).names = gs.flatten.flatMap fun p => p.type.names := by
  unfold wholeType
  split
  · simp [names_jointType]
  · rw [names, namesList_eq, List.flatMap_map, ← List.flatMap_id, List.flatMap_assoc]
    exact List.flatMap_congr fun g _ => names_jointType g

lemma names_wholeType_onFirst (gs : List (List Piece)) :
    (wholeType (onFirst optional gs)).names = (wholeType gs).names := by
  rw [names_wholeType, names_wholeType]
  unfold onFirst
  split
  · simp [Piece.optional, names]
  · rfl

lemma names_memberPieces {ts : List (TypeExpr Text)}
    (h : ∀ t ∈ ts, (wholeType (pieces t)).names = t.names) :
    ((ts.flatMap fun t => (memberPieces t).flatten).flatMap fun p => p.type.names) =
      ts.flatMap names := by
  rw [List.flatMap_assoc]
  refine List.flatMap_congr fun t ht => ?_
  rw [← names_wholeType, memberPieces, wholeType_wrapIf, h t ht]

/-- Regrouping moves no name. -/
theorem names_regroup (t : TypeExpr Text) : (regroup t).names = t.names := by
  unfold regroup
  induction t with
  | name n => rfl
  | nullable t ih => rw [pieces, names_wholeType_onFirst, ih, names]
  | array t ih => rw [pieces, wholeType_singleton, bracketed, wholeType_wrapIf, names, ih, names]
  | union ts ih =>
    rw [pieces, names_wholeType, flatten_unionPieces, names_memberPieces ih, names, namesList_eq]
  | intersection ts ih =>
    rw [pieces, names_wholeType, flatten_intersectionPieces, names_memberPieces ih, names,
      namesList_eq]
  | generic b ts ih =>
    simp only [pieces, wholeType, jointType, applied, names, namesList_eq, argPieces_eq,
      List.map_map, List.flatMap_map]
    congr 1
    exact List.flatMap_congr fun t ht => ih t ht

/-! Where the pieces are the members. -/

lemma exists_piece_of_not_compound {gs : List (List Piece)} (h : Full gs)
    (hc : (wholeType gs).isCompound = false) : ∃ p, gs = [[p]] := by
  obtain ⟨p, g, gs, rfl⟩ := h.exists_cons
  cases gs with
  | nil =>
    cases g with
    | nil => exact ⟨p, rfl⟩
    | cons q g => simp [wholeType, jointType, isCompound] at hc
  | cons g' gs => simp [wholeType, isCompound] at hc

lemma exists_piece_of_flatten {gs : List (List Piece)} (h : Full gs) {p : Piece}
    (hp : gs.flatten = [p]) : gs = [[p]] := by
  obtain ⟨q, g, gs, rfl⟩ := h.exists_cons
  rw [List.flatten_cons, List.cons_append, List.cons.injEq, List.append_eq_nil_iff] at hp
  obtain ⟨rfl, rfl, hgs⟩ := hp
  cases gs with
  | nil => rfl
  | cons g' gs =>
    have := h.2 g' (by simp)
    simp_all

lemma wholeType_union {gs : List (List Piece)} (h : 2 ≤ gs.length) :
    wholeType gs = .union (gs.map jointType) := by
  unfold wholeType
  split
  · simp at h
  · rfl

lemma length_le_length_flatMap {α β : Type} {xs : List α} {f : α → List β}
    (hf : ∀ x ∈ xs, f x ≠ []) : xs.length ≤ (xs.flatMap f).length := by
  induction xs with
  | nil => simp
  | cons x xs ih =>
    have hx : 0 < (f x).length := List.length_pos_iff.mpr (hf x (by simp))
    have ih := ih fun y hy => hf y (by simp [hy])
    rw [List.flatMap_cons, List.length_append, List.length_cons]
    omega

/-- A list that is cut into as many parts as it has elements has one element in each part. -/
lemma map_flatMap_eq_self_iff {α β : Type} {xs : List α} {f : α → List β} {k : β → α}
    (hf : ∀ x ∈ xs, f x ≠ []) :
    (xs.flatMap f).map k = xs ↔ ∀ x ∈ xs, ∃ y, f x = [y] ∧ k y = x := by
  induction xs with
  | nil => simp
  | cons x xs ih =>
    have hlen : xs.length ≤ (xs.flatMap f).length :=
      length_le_length_flatMap fun y hy => hf y (by simp [hy])
    obtain ⟨y, ys, hy⟩ := List.exists_cons_of_ne_nil (hf x (by simp))
    have ih := ih fun y hy => hf y (by simp [hy])
    constructor
    · intro h
      rw [List.flatMap_cons, hy, List.cons_append, List.map_cons, List.cons.injEq,
        List.map_append] at h
      have hl := congrArg List.length h.2
      simp only [List.length_append, List.length_map] at hl
      obtain rfl : ys = [] := List.eq_nil_of_length_eq_zero (by omega)
      intro z hz
      rcases List.mem_cons.mp hz with rfl | hz
      · exact ⟨y, hy, h.1⟩
      · exact ih.mp (by simpa using h.2) z hz
    · intro h
      obtain ⟨z, hz, rfl⟩ := h x (by simp)
      rw [List.flatMap_cons, hz, List.singleton_append, List.map_cons,
        ih.mpr fun w hw => h w (by simp [hw])]

lemma memberPieces_eq_singleton_iff {t : TypeExpr Text} (h : t.isProper) :
    (∃ p, memberPieces t = [[p]] ∧ p.type = t) ↔ regroup t = t := by
  constructor
  · rintro ⟨p, hp, ht⟩
    rw [regroup, ← wholeType_wrapIf t.isCompound, ← memberPieces, hp, wholeType_singleton, ht]
  · intro hr
    cases hc : t.isCompound with
    | true => exact ⟨parenthesized (pieces t), by simp [memberPieces, hc, wrapIf], hr⟩
    | false =>
      obtain ⟨p, hp⟩ := exists_piece_of_not_compound (pieces_full t h) (by rw [← regroup, hr, hc])
      refine ⟨p, by simp [memberPieces, hc, wrapIf, hp], ?_⟩
      rw [← wholeType_singleton p, ← hp]
      exact hr

lemma regroup_union_eq_self_iff {ts : List (TypeExpr Text)} (h : (union ts).isProper) :
    regroup (.union ts) = .union ts ↔ ∀ t ∈ ts, regroup t = t := by
  rw [isProper_union] at h
  have hf : ∀ t ∈ ts, memberPieces t ≠ [] := fun t ht => (memberPieces_full (h.2 t ht)).1
  have hlen : 2 ≤ (ts.flatMap memberPieces).length := h.1.trans (length_le_length_flatMap hf)
  rw [regroup, pieces, unionPieces_eq, wholeType_union hlen, union.injEq,
    map_flatMap_eq_self_iff hf]
  refine forall₂_congr fun t ht => ⟨?_, fun hr => ?_⟩
  · rintro ⟨g, hg, rfl⟩
    have := wholeType_wrapIf (jointType g).isCompound (pieces (jointType g))
    rw [← memberPieces, hg] at this
    exact this.symm
  · obtain ⟨p, hp, hpt⟩ := (memberPieces_eq_singleton_iff (h.2 t ht)).mpr hr
    exact ⟨[p], hp, hpt⟩

lemma intersectionPieces_of_singletons {ts : List (TypeExpr Text)}
    (h : ∀ t ∈ ts, ∃ p, memberPieces t = [[p]] ∧ p.type = t) (hne : ts ≠ []) :
    ∃ g, intersectionPieces ts = [g] ∧ g.map (·.type) = ts := by
  induction ts with
  | nil => exact absurd rfl hne
  | cons t ts ih =>
    obtain ⟨p, hp, hpt⟩ := h t (by simp)
    rw [intersectionPieces, ← memberPieces, hp]
    cases ts with
    | nil => exact ⟨[p], by simp [intersectionPieces], by simp [hpt]⟩
    | cons u us =>
      obtain ⟨g, hg, hgt⟩ := ih (fun v hv => h v (by simp_all)) (by simp)
      exact ⟨p :: g, by rw [hg]; rfl, by simp [hpt, hgt]⟩

lemma regroup_intersection_eq_self_iff {ts : List (TypeExpr Text)}
    (h : (intersection ts).isProper) :
    regroup (.intersection ts) = .intersection ts ↔ ∀ t ∈ ts, regroup t = t := by
  rw [isProper_intersection] at h
  have hm : ∀ t ∈ ts, Full (memberPieces t) := fun t ht => memberPieces_full (h.2 t ht)
  have hne : ts ≠ [] := List.ne_nil_of_length_pos (by omega)
  rw [regroup, pieces]
  constructor
  · intro hr t ht
    have hf : ∀ t ∈ ts, (memberPieces t).flatten ≠ [] := fun u hu => (hm u hu).flatten_ne_nil
    have hs : (ts.flatMap fun t => (memberPieces t).flatten).map (·.type) = ts := by
      rw [← flatten_intersectionPieces]
      obtain ⟨p, g, gs, he⟩ := (intersectionPieces_full hm hne).exists_cons
      rw [he] at hr ⊢
      cases gs with
      | cons g' gs => simp [wholeType] at hr
      | nil =>
        cases g with
        | nil =>
          -- a lone piece cannot stand for two members
          have hl : (intersectionPieces ts).flatten.length = 1 := by simp [he]
          rw [flatten_intersectionPieces] at hl
          have := length_le_length_flatMap hf
          omega
        | cons q g => simpa [wholeType, jointType] using hr
    obtain ⟨p, hp, hpt⟩ := (map_flatMap_eq_self_iff hf).mp hs t ht
    exact (memberPieces_eq_singleton_iff (h.2 t ht)).mp
      ⟨p, exists_piece_of_flatten (hm t ht) hp, hpt⟩
  · intro hr
    obtain ⟨g, hg, hgt⟩ := intersectionPieces_of_singletons
      (fun t ht => (memberPieces_eq_singleton_iff (h.2 t ht)).mpr (hr t ht)) hne
    rw [hg, ← hgt]
    have hl : 2 ≤ g.length := by simpa [← hgt] using h.1
    match g, hl with
    | p :: q :: g, _ => rfl

/-- The pieces of two members or more are two or more. -/
lemma pieces_ne_singleton {t : TypeExpr Text} (h : t.isProper) (hc : t.isCompound) (p : Piece) :
    pieces t ≠ [[p]] := by
  intro hp
  have hf : ∀ ts : List (TypeExpr Text), (∀ u ∈ ts, u.isProper) →
      ts.length ≤ (ts.flatMap fun u => (memberPieces u).flatten).length := fun ts hts =>
    length_le_length_flatMap fun u hu => (memberPieces_full (hts u hu)).flatten_ne_nil
  have hl : (pieces t).flatten.length = 1 := by simp [hp]
  cases t with
  | union ts =>
    rw [isProper_union] at h
    have := hf ts h.2
    rw [pieces, flatten_unionPieces] at hl
    omega
  | intersection ts =>
    rw [isProper_intersection] at h
    have := hf ts h.2
    rw [pieces, flatten_intersectionPieces] at hl
    omega
  | name n => simp [isCompound] at hc
  | nullable t => simp [isCompound] at hc
  | array t => simp [isCompound] at hc
  | generic b ts => simp [isCompound] at hc

/-- A `?` reaches the first piece only. -/
lemma regroup_nullable_eq_self_iff {t : TypeExpr Text} (h : t.isProper) :
    regroup (.nullable t) = .nullable t ↔ t.isCompound = false ∧ regroup t = t := by
  rw [regroup, pieces]
  constructor
  · intro hr
    obtain ⟨p, hp⟩ := exists_piece_of_not_compound ((pieces_full t h).onFirst _) (by rw [hr]; rfl)
    obtain ⟨q, hq⟩ : ∃ q, pieces t = [[q]] := by
      obtain ⟨q, g, gs, he⟩ := (pieces_full t h).exists_cons
      rw [he] at hp ⊢
      simp_all [onFirst]
    rw [hq] at hr
    refine ⟨?_, by rw [regroup, hq]; exact nullable.inj hr⟩
    rw [Bool.eq_false_iff]
    exact fun hc => pieces_ne_singleton h hc q hq
  · rintro ⟨hc, hr⟩
    obtain ⟨q, hq⟩ := exists_piece_of_not_compound (pieces_full t h) (by rw [← regroup, hr, hc])
    rw [regroup, hq] at hr
    rw [hq]
    exact congrArg nullable hr

/-- The printed type reads as the type itself exactly where the type is grouped. -/
theorem regroup_eq_self_iff (t : TypeExpr Text) (h : t.isProper) :
    regroup t = t ↔ t.isGrouped := by
  induction t with
  | name n => simp [regroup, pieces, isGrouped]
  | nullable t ih =>
    rw [isProper] at h
    rw [regroup_nullable_eq_self_iff h, isGrouped, Bool.and_eq_true, Bool.not_eq_true', ih h]
  | array t ih =>
    rw [regroup, pieces, wholeType_singleton, bracketed, wholeType_wrapIf, array.injEq, isGrouped]
    exact ih h
  | union ts ih =>
    rw [regroup_union_eq_self_iff h, isGrouped, allGrouped_iff]
    rw [isProper_union] at h
    exact forall₂_congr fun t ht => ih t ht (h.2 t ht)
  | intersection ts ih =>
    rw [regroup_intersection_eq_self_iff h, isGrouped, allGrouped_iff]
    rw [isProper_intersection] at h
    exact forall₂_congr fun t ht => ih t ht (h.2 t ht)
  | generic b ts ih =>
    rw [isProper_generic] at h
    rw [regroup, pieces, wholeType_singleton, applied, argPieces_eq, generic.injEq, List.map_map,
      isGrouped, allGrouped_iff, eq_self, true_and]
    have hs := List.map_inj_left (f := regroup) (g := id) (l := ts)
    rw [List.map_id] at hs
    exact hs.trans (forall₂_congr fun t ht => ih t ht (h.2 t ht))

end TypeExpr
end DocTypes
