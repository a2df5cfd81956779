import DocTypes.Doc.Content
import DocTypes.Proofs.TypeExpr.Reading
import DocTypes.Proofs.TypeExpr.Derivation

/-!
A type that was read, printed, and read again. It comes back exactly where its text shows how it
is grouped and puts no `$` behind an `&`; otherwise it comes back regrouped, or not at all.
-/
namespace DocTypes
namespace TypeExpr
open Piece

/-! Which types are readable, by their pieces. -/

lemma isJoinable_append_flatMap {c : Char} (hc : c ≠ '$') {α : Type} (f : α → Text) (s : Text)
    (xs : List α) : isJoinable (s ++ xs.flatMap fun x => c :: f x) = isJoinable s := by
  cases s with
  | nil => cases xs <;> simp [isJoinable, Text.startsWith, List.isPrefixOf, hc.symm]
  | cons d s => simp [isJoinable, Text.startsWith, List.isPrefixOf]

lemma isJoinable_wholeText (p : Piece) (g : List Piece) (gs : List (List Piece)) :
    isJoinable (wholeText ((p :: g) :: gs)) = isJoinable p.text := by
  rw [wholeText_cons, isJoinable_append_flatMap (by decide), jointText_cons,
    isJoinable_append_flatMap (by decide)]

lemma wholeReadable_glue {gs hs : List (List Piece)} (hg : Full gs) (hh : Full hs) :
    wholeReadable (glue gs hs) =
      (wholeReadable gs && (wholeReadable hs && isJoinable (wholeText hs))) := by
  fun_induction glue gs hs with
  | case1 gs => exact absurd rfl hh.1
  | case2 hs _ => exact absurd rfl hg.1
  | case3 g h hs =>
    obtain ⟨p, g, rfl⟩ := List.exists_cons_of_ne_nil (hg.2 g (by simp))
    obtain ⟨q, h, rfl⟩ := List.exists_cons_of_ne_nil (hh.2 h (by simp))
    rw [isJoinable_wholeText, Bool.eq_iff_iff]
    simp only [wholeReadable, jointReadable, List.cons_append, List.all_cons, List.tail_cons,
      List.all_append, List.all_nil, Bool.and_true, Bool.and_eq_true]
    tauto
  | case4 g g' gs hs _ ih =>
    have hg' : Full (g' :: gs) := ⟨by simp, fun k hk => hg.2 k (by simp_all)⟩
    have ih := ih hg' hh
    simp only [wholeReadable, List.all_cons] at ih ⊢
    rw [ih]
    simp only [Bool.and_assoc]

lemma wholeReadable_onFirst_optional (gs : List (List Piece)) :
    wholeReadable (onFirst optional gs) = wholeReadable gs := by
  unfold onFirst
  split
  · simp [wholeReadable, jointReadable, Piece.optional]
  · rfl

lemma wholeReadable_unionPieces (ts : List (TypeExpr Text)) :
    wholeReadable (unionPieces ts) = ts.all fun t => wholeReadable (memberPieces t) := by
  rw [unionPieces_eq]
  induction ts with
  | nil => rfl
  | cons t ts ih => simp_all [wholeReadable]

lemma wholeReadable_intersectionPieces {ts : List (TypeExpr Text)}
    (h : ∀ t ∈ ts, Full (memberPieces t)) :
    wholeReadable (intersectionPieces ts) = ((ts.all fun t => wholeReadable (memberPieces t)) &&
      ts.tail.all fun t => isJoinable (wholeText (memberPieces t))) := by
  induction ts with
  | nil => rfl
  | cons t ts ih =>
    have ht : Full (memberPieces t) := h t (by simp)
    have ih := ih fun u hu => h u (by simp [hu])
    cases ts with
    | nil => simp [intersectionPieces, memberPieces]
    | cons u us =>
      have hus : ∀ v ∈ u :: us, Full (memberPieces v) := fun v hv => h v (by simp_all)
      have hjoin : isJoinable (wholeText (intersectionPieces (u :: us))) =
          isJoinable (wholeText (memberPieces u)) := by
        rw [wholeText_intersectionPieces hus, List.map_cons, Text.join_cons, List.flatMap_map]
        exact isJoinable_append_flatMap (by decide) _ _ _
      rw [intersectionPieces, ← memberPieces,
        wholeReadable_glue ht (intersectionPieces_full hus (by simp)), ih, hjoin, Bool.eq_iff_iff]
      simp only [List.all_cons, List.tail_cons, Bool.and_eq_true]
      tauto

lemma wholeReadable_pieces {t : TypeExpr Text} (h : t.isProper) :
    wholeReadable (pieces t) = t.isReadable := by
  induction t with
  | name n => rw [pieces, wholeReadable_singleton, isReadable]
  | nullable t ih => rw [pieces, wholeReadable_onFirst_optional, ih h, isReadable]
  | array t ih =>
    rw [pieces, wholeReadable_singleton, bracketed, wholeReadable_wrapIf, ih h, isReadable]
  | union ts ih =>
    rw [isProper_union] at h
    rw [pieces, wholeReadable_unionPieces, isReadable, Bool.eq_iff_iff, List.all_eq_true,
      allReadable_iff]
    refine forall₂_congr fun t ht => ?_
    rw [memberPieces, wholeReadable_wrapIf, ih t ht (h.2 t ht)]
  | intersection ts ih =>
    rw [isProper_intersection] at h
    rw [pieces, wholeReadable_intersectionPieces fun t ht => memberPieces_full (h.2 t ht),
      isReadable, Bool.eq_iff_iff, Bool.and_eq_true, Bool.and_eq_true, List.all_eq_true,
      List.all_eq_true, List.all_eq_true, allReadable_iff]
    refine and_congr (forall₂_congr fun t ht => ?_) (forall₂_congr fun t ht => ?_)
    · rw [memberPieces, wholeReadable_wrapIf, ih t ht (h.2 t ht)]
    · rw [wholeText_memberPieces (h.2 t (List.mem_of_mem_tail ht))]
  | generic b ts ih =>
    rw [isProper_generic] at h
    have hargs : ((argPieces ts).all wholeReadable = true) ↔ allReadable ts = true := by
      rw [argPieces_eq, List.all_map, List.all_eq_true, allReadable_iff]
      exact forall₂_congr fun t ht => by simp [ih t ht (h.2 t ht)]
    rw [pieces, wholeReadable_singleton, applied, isReadable, Bool.eq_iff_iff, Bool.and_eq_true,
      Bool.and_eq_true, hargs]

/-! Reading what was printed. -/

/-- A printed type, alone or in front of white space, is read as a whole or not at all. -/
theorem readPrefix_render_append {t : TypeExpr Text} (h : t.isProper) (hn : ∀ n ∈ t.names, isWord n)
    {r : Text} (hr : r = [] ∨ ∃ c s, r = c :: s ∧ Text.isBlank c) :
    if t.isReadable then readPrefix (t.render ++ r) = .ok (regroup t, r)
    else ∃ e, readPrefix (t.render ++ r) = .error e := by
  have hstop : stops ['<', '[', '&', '|'] r := by
    rcases hr with rfl | ⟨c, s, rfl, hc⟩
    · rfl
    · have hm : ∀ d ∈ ['<', '[', '&', '|'], Text.isBlank d = false :=
        Text.forall_eq_false_of_any (by decide)
      have hc' : c ∉ ['<', '[', '&', '|'] := fun hd => by simp [hm c hd] at hc
      rw [stops_cons, continuesName_of_isBlank hc]
      simpa using hc'
  have hlong := readType_wholeText ((readsApart h hn).legible h hn)
    (d := (t.render ++ r).length + 1)
    (by rw [wholeText_pieces t h, List.length_append]; omega) hstop
  rw [wholeText_pieces t h, wholeReadable_pieces h, ← regroup] at hlong
  change Yields (readLongest (t.render ++ r)) _ _ at hlong
  rw [readPrefix]
  cases hread : t.isReadable with
  | true =>
    rw [hread] at hlong
    obtain hlong : readLongest (t.render ++ r) = .ok (regroup t, r) := hlong
    rw [hlong]
    rcases hr with rfl | ⟨c, s, rfl, hc⟩
    · rfl
    · simp [hc]
  | false =>
    rw [hread] at hlong
    cases hl : readLongest (t.render ++ r) with
    | error e => exact ⟨_, rfl⟩
    | ok y =>
      obtain ⟨u, x⟩ := y
      obtain ⟨x, rfl⟩ := hlong u x hl
      exact ⟨.before (t.render ++ r) ('&' :: '$' :: x),
        by simp [show Text.isBlank '&' = false by decide]⟩

lemma read_render {t : TypeExpr Text} (h : t.isProper) (hn : ∀ n ∈ t.names, isWord n) :
    if t.isReadable then read t.render = .ok (regroup t) else ∃ e, read t.render = .error e := by
  have := readPrefix_render_append h hn (r := []) (.inl rfl)
  rw [List.append_nil] at this
  rw [read, (solid_render h hn).trim_eq]
  split at this
  · rw [this, if_pos ‹_›]
  · obtain ⟨e, he⟩ := this
    rw [he, if_neg ‹_›]
    exact ⟨e, rfl⟩

end TypeExpr

namespace TypedValue
open TypeExpr

lemma render_eq (v : TypedValue Text) :
    ∃ tail, v.render = v.type.render ++ tail ∧ (tail = [] ∨ ∃ s, tail = ' ' :: s) := by
  rw [render]
  cases v.variableName with
  | none =>
    cases v.description with
    | nil => exact ⟨[], by simp, .inl rfl⟩
    | cons c s => exact ⟨' ' :: c :: s, by simp, .inr ⟨_, rfl⟩⟩
  | some name =>
    exact ⟨' ' :: name ++ if v.description.isEmpty then [] else ' ' :: v.description, by simp,
      .inr ⟨_, rfl⟩⟩

/-- The type of the value in a printed tag, whatever variable and description follow it. -/
theorem typed?_read_render {v : TypedValue Text} (h : v.type.isProper)
    (hn : ∀ n ∈ v.type.names, isWord n) :
    (read v.render).typed?.map (·.type) =
      if v.type.isReadable then some (regroup v.type) else none := by
  obtain ⟨tail, hv, htail⟩ := render_eq v
  have hcut : Text.trimEnd tail = [] ∨ ∃ c s, Text.trimEnd tail = c :: s ∧ Text.isBlank c := by
    rcases htail with rfl | ⟨s, rfl⟩
    · exact .inl rfl
    · rcases Text.trimEnd_cons_cases ' ' s with hs | hs
      · exact .inl hs
      · exact .inr ⟨' ', _, hs, by decide⟩
  have hread := readPrefix_render_append h hn hcut
  rw [read, hv, (solid_render h hn).trim_append]
  split at hread
  · rw [hread, if_pos ‹_›]
    dsimp only
    split <;> rfl
  · obtain ⟨e, he⟩ := hread
    rw [he, if_neg ‹_›]
    rfl

end TypedValue

namespace TypeExpr

/-- A type that was read comes back from its own text, and from any tag that is printed with it,
exactly if it has no `?` in front of a union or an intersection and no `$` behind an `&`. -/
theorem read_render_eq_self_iff {s : Text} {t : TypeExpr Text} (h : read s = .ok t) :
    (read t.render = .ok t ↔ t.isReadable ∧ t.isGrouped) ∧
      ∀ v : TypedValue Text, v.type = t →
        ((TypedValue.read v.render).typed?.map (·.type) = some t ↔ t.isReadable ∧ t.isGrouped) := by
  obtain ⟨hp, hnames⟩ := isWritten_of_read h
  have hn : ∀ n ∈ t.names, isWord n := fun n hn => isWord_of_isName (hnames n hn)
  rw [← regroup_eq_self_iff t hp]
  refine ⟨?_, fun v hv => ?_⟩
  · have hread := read_render hp hn
    by_cases hr : t.isReadable
    · rw [if_pos hr] at hread
      simp [hread, hr]
    · rw [if_neg hr] at hread
      obtain ⟨e, he⟩ := hread
      simp [he, hr]
  · subst hv
    rw [TypedValue.typed?_read_render hp hn]
    by_cases hr : v.type.isReadable <;> simp [hr]

theorem read_render_array_union :
    read "(A|B)[]" = .ok (.array (.union [.name "A", .name "B"])) ∧
      ∀ v : TypedValue Text, v.type = .array (.union [.name "A", .name "B"]) →
        (TypedValue.read v.render).typed?.map (·.type) = some v.type := by
  have h : read "(A|B)[]" = .ok (.array (.union [.name "A", .name "B"])) := by decide +kernel
  refine ⟨h, fun v hv => ?_⟩
  rw [hv]
  exact ((read_render_eq_self_iff h).2 v hv).mpr (by decide +kernel)

/-- The parentheses behind a `?` are lost, and the `?` is left to the first member. -/
theorem read_render_nullable_union :
    ∃ t, read "?(A|B)" = .ok t ∧ read t.render = .ok (.union [.nullable (.name "A"), .name "B"]) ∧
      read t.render ≠ .ok t := by
  refine ⟨.nullable (.union [.name "A", .name "B"]), ?_, ?_, ?_⟩ <;> decide +kernel

end TypeExpr
end DocTypes
