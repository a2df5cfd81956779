import DocTypes.Import.Shorten
import DocTypes.Proofs.Doc.TypedTags

/-!
Replacing the names of a tree one after the other. Whatever the tree, the names are met from left
to right, and the state that one leaves behind is the state in which the next is replaced.
-/
namespace DocTypes

variable {σ ν μ : Type}

/-- A run of replacements: each name next to what replaced it. -/
inductive Steps (f : ν → StateM σ μ) : σ → List (ν × μ) → σ → Prop where
  | nil (st : σ) : Steps f st [] st
  | cons {st st' : σ} {n : ν} {ps : List (ν × μ)} (h : Steps f (f n st).2 ps st') :
      Steps f st ((n, (f n st).1) :: ps) st'

namespace Steps

variable {f : ν → StateM σ μ} {st st' st'' : σ} {ps qs : List (ν × μ)}

lemma append (hp : Steps f st ps st') (hq : Steps f st' qs st'') : Steps f st (ps ++ qs) st'' := by
  induction hp with
  | nil => exact hq
  | cons _ ih => exact .cons (ih hq)

/-- What holds of every replacement, whatever the state, holds along a run. -/
lemma forall_mem {P : ν → μ → Prop} (h : ∀ n st, P n (f n st).1) (hs : Steps f st ps st') :
    ∀ p ∈ ps, P p.1 p.2 := by
  induction hs with
  | nil => simp
  | cons _ ih =>
    intro p hp
    rcases List.mem_cons.mp hp with rfl | hp
    · exact h _ _
    · exact ih p hp

end Steps

/-! Every kind of tree is replaced by a run over its names. -/

namespace TypeExpr

/-- The names of a type are replaced in a run, and the type keeps its shape. -/
def RunsOver (f : ν → StateM σ μ) (t : TypeExpr ν) : Prop :=
  ∀ st, ∃ ps : TypeExpr (ν × μ), ps.map Prod.fst = t ∧ (t.mapM f st).1 = ps.map Prod.snd ∧
    Steps f st ps.names (t.mapM f st).2

lemma exists_mapListM (f : ν → StateM σ μ) {ts : List (TypeExpr ν)} (h : ∀ t ∈ ts, RunsOver f t)
    (st : σ) : ∃ ps : List (TypeExpr (ν × μ)), mapList Prod.fst ps = ts ∧
      (mapListM f ts st).1 = mapList Prod.snd ps ∧
      Steps f st (namesList ps) (mapListM f ts st).2 := by
  induction ts generalizing st with
  | nil => exact ⟨[], rfl, rfl, .nil st⟩
  | cons t ts ih =>
    obtain ⟨p, hp, hr, hs⟩ := h t (by simp) st
    obtain ⟨ps, hps, hrs, hss⟩ := ih (fun t ht => h t (by simp [ht])) (t.mapM f st).2
    refine ⟨p :: ps, ?_, ?_, hs.append hss⟩
    · rw [mapList, hp, hps]
    · rw [mapList, ← hr, ← hrs]
      rfl

theorem runsOver (f : ν → StateM σ μ) (t : TypeExpr ν) : RunsOver f t := by
  intro st
  induction t generalizing st with
  | name n => exact ⟨.name (n, (f n st).1), rfl, rfl, .cons (.nil _)⟩
  | nullable t ih =>
    obtain ⟨p, rfl, hr, hs⟩ := ih st
    exact ⟨.nullable p, rfl, congrArg nullable hr, hs⟩
  | array t ih =>
    obtain ⟨p, rfl, hr, hs⟩ := ih st
    exact ⟨.array p, rfl, congrArg array hr, hs⟩
  | union ts ih =>
    obtain ⟨ps, rfl, hr, hs⟩ := exists_mapListM f ih st
    exact ⟨.union ps, rfl, congrArg union hr, hs⟩
  | intersection ts ih =>
    obtain ⟨ps, rfl, hr, hs⟩ := exists_mapListM f ih st
    exact ⟨.intersection ps, rfl, congrArg intersection hr, hs⟩
  | generic b ts ih =>
    obtain ⟨ps, rfl, hr, hs⟩ := exists_mapListM f ih (f b st).2
    exact ⟨.generic (b, (f b st).1) ps, rfl, congrArg (generic (f b st).1) hr, .cons hs⟩

end TypeExpr

namespace Content

lemma exists_mapM (f : ν → StateM σ μ) (c : Content ν) (st : σ) : ∃ ps : Content (ν × μ),
    ps.map Prod.fst = c ∧ (c.mapM f st).1 = ps.map Prod.snd ∧
      Steps f st ps.names (c.mapM f st).2 := by
  cases c with
  | text s => exact ⟨.text s, rfl, rfl, .nil st⟩
  | tag t =>
    obtain ⟨name, value⟩ := t
    cases value with
    | plain s => exact ⟨.tag ⟨name, .plain s⟩, rfl, rfl, .nil st⟩
    | malformed s => exact ⟨.tag ⟨name, .malformed s⟩, rfl, rfl, .nil st⟩
    | typed v =>
      obtain ⟨type, variableName, description⟩ := v
      obtain ⟨p, rfl, hr, hs⟩ := TypeExpr.runsOver f type st
      exact ⟨.tag ⟨name, .typed ⟨p, variableName, description⟩⟩, rfl,
        congrArg (fun t => Content.tag ⟨name, .typed ⟨t, variableName, description⟩⟩) hr, hs⟩

end Content

/-- An entry with every name next to the name that replaces it. -/
structure Renaming where
  content : Content (TypeRef × TypeRef)
  origin : Option Origin

namespace Renaming

def before (r : Renaming) : Entry := ⟨r.content.map Prod.fst, r.origin⟩

def after (r : Renaming) : Entry := ⟨r.content.map Prod.snd, r.origin⟩

end Renaming

namespace DocTree

def names (d : DocTree) : List TypeRef := d.entries.flatMap (·.content.names)

lemma names_of_entries (f : TypeRef × TypeRef → TypeRef) {d : DocTree} {rs : List Renaming}
    (h : d.entries = rs.map fun r => ⟨r.content.map f, r.origin⟩) :
    d.names = (rs.flatMap (·.content.names)).map f := by
  rw [names, h, List.flatMap_map, List.map_flatMap]
  exact List.flatMap_congr fun r _ => Content.names_map f r.content

/-- Shortening renames the entries in their places, in one run over all names. -/
theorem exists_shorten (classExists : Text → Bool) (scope : NameScope) (d : DocTree)
    (st : ImportState) : ∃ rs : List Renaming, d.entries = rs.map Renaming.before ∧
      (d.shorten classExists scope st).1 = { d with entries := rs.map Renaming.after } ∧
      Steps (TypeRef.shorten classExists scope) st (rs.flatMap (·.content.names))
        (d.shorten classExists scope st).2 := by
  have key : ∀ (es : List Entry) (st : ImportState), ∃ rs : List Renaming,
      es = rs.map Renaming.before ∧
      let run := es.mapM (m := StateM ImportState) (fun e => do
        return { e with content := ← e.content.mapM (TypeRef.shorten classExists scope) }) st
      run.1 = rs.map Renaming.after ∧
        Steps (TypeRef.shorten classExists scope) st (rs.flatMap (·.content.names)) run.2 := by
    intro es
    induction es with
    | nil => exact fun st => ⟨[], rfl, rfl, .nil st⟩
    | cons e es ih =>
      intro st
      obtain ⟨c, hc, hr, hs⟩ := e.content.exists_mapM (TypeRef.shorten classExists scope) st
      obtain ⟨rs, hrs, hrr, hss⟩ :=
        ih (e.content.mapM (TypeRef.shorten classExists scope) st).2
      refine ⟨⟨c, e.origin⟩ :: rs, ?_, ?_⟩
      · rw [List.map_cons, ← hrs, Renaming.before, hc]
      · rw [List.mapM_cons]
        refine ⟨?_, hs.append hss⟩
        rw [List.map_cons, ← hrr, Renaming.after, ← hr]
        rfl
  obtain ⟨rs, hrs, hr, hs⟩ := key d.entries st
  exact ⟨rs, hrs, congrArg (fun es => { d with entries := es }) hr, hs⟩

end DocTree
end DocTypes
