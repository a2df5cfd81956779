import DocTypes.Proofs.Inference.Blindness
import Mathlib.Data.List.Nodup

/-!
Which strategy answers. Strategies are asked by descending priority, so the answer is that of the highest
priority among those that find anything; of equal ones the earlier was asked. In what order and how often
strategies are given makes no difference as long as their priorities tell them apart.
-/
namespace DocTypes

namespace Inferer

/-- The highest priority in a list, and the earliest there that has it. -/
def IsBest (ss : List Strategy) (s : Strategy) : Prop :=
  ∃ before after, ss = before ++ s :: after ∧
    (∀ t ∈ before, t.priority < s.priority) ∧ ∀ t ∈ after, t.priority ≤ s.priority

/-! The order in which strategies are asked. -/

/-- A priority that is not below any other goes to the front. -/
lemma place_eq_cons {s : Strategy} {ss : List Strategy} (h : ∀ t ∈ ss, t.priority ≤ s.priority) :
    place s ss = s :: ss := by
  cases ss with
  | nil => rfl
  | cons t ts => rw [place, if_pos (h t List.mem_cons_self)]

lemma pairwise_place {s : Strategy} {ss : List Strategy}
    (h : ss.Pairwise fun t u => u.priority ≤ t.priority) :
    (place s ss).Pairwise fun t u => u.priority ≤ t.priority := by
  induction ss with
  | nil => exact List.pairwise_singleton _ s
  | cons t ts ih =>
    obtain ⟨ht, hts⟩ := List.pairwise_cons.mp h
    rw [place]
    split
    · rename_i hle
      refine List.pairwise_cons.mpr ⟨fun u hu => ?_, h⟩
      rcases List.mem_cons.mp hu with rfl | hu
      · exact hle
      · exact Int.le_trans (ht u hu) hle
    · rename_i hlt
      refine List.pairwise_cons.mpr ⟨fun u hu => ?_, ih hts⟩
      rcases mem_place.mp hu with rfl | hu
      · exact Int.le_of_lt (Int.not_le.mp hlt)
      · exact ht u hu

/-- By descending priority. -/
lemma pairwise_strategies (ss : List Strategy) :
    (ofStrategies ss).strategies.Pairwise fun t u => u.priority ≤ t.priority := by
  induction ss with
  | nil => exact .nil
  | cons s ss ih => exact pairwise_place ih

lemma filter_place {s : Strategy} {ss : List Strategy} (p : Strategy → Bool)
    (h : ss.Pairwise fun t u => u.priority ≤ t.priority) :
    (place s ss).filter p = if p s then place s (ss.filter p) else ss.filter p := by
  induction ss with
  | nil => simp [place, List.filter_cons]
  | cons t ts ih =>
    obtain ⟨ht, hts⟩ := List.pairwise_cons.mp h
    by_cases hle : t.priority ≤ s.priority
    · -- All that is left of the list stays behind the new strategy.
      have hall : ∀ u ∈ t :: ts, u.priority ≤ s.priority :=
        List.forall_mem_cons.mpr ⟨hle, fun u hu => Int.le_trans (ht u hu) hle⟩
      have hkept : ∀ u ∈ (t :: ts).filter p, u.priority ≤ s.priority :=
        fun u hu => hall u (List.mem_filter.mp hu).1
      rw [place_eq_cons hall, place_eq_cons hkept, List.filter_cons]
    · rw [place, if_neg hle, List.filter_cons, ih hts, List.filter_cons]
      cases p t <;> cases p s <;> simp [place, hle]

/-- Strategies can be left out before or after they are ordered. -/
lemma filter_strategies (p : Strategy → Bool) (ss : List Strategy) :
    (ofStrategies ss).strategies.filter p = (ofStrategies (ss.filter p)).strategies := by
  induction ss with
  | nil => rfl
  | cons s ss ih =>
    have hplace := filter_place (s := s) p (pairwise_strategies ss)
    rw [ih] at hplace
    refine hplace.trans ?_
    rw [List.filter_cons]
    split <;> rfl

/-- The best is asked first. -/
lemma exists_isBest_head {ss : List Strategy} (h : ss ≠ []) :
    ∃ s, (ofStrategies ss).strategies.head? = some s ∧ IsBest ss s := by
  induction ss with
  | nil => exact absurd rfl h
  | cons t ts ih =>
    change ∃ s, (place t (ofStrategies ts).strategies).head? = some s ∧ _
    by_cases hts : ts = []
    · subst hts
      exact ⟨t, rfl, [], [], rfl, List.forall_mem_nil _, List.forall_mem_nil _⟩
    · obtain ⟨s, hs, before, after, rfl, hbefore, hafter⟩ := ih hts
      obtain ⟨rest, hrest⟩ := List.head?_eq_some_iff.mp hs
      rw [hrest, place]
      split
      · rename_i hle
        refine ⟨t, rfl, [], _, rfl, List.forall_mem_nil _, fun u hu => ?_⟩
        rcases List.mem_append.mp hu with hu | hu
        · exact Int.le_trans (Int.le_of_lt (hbefore u hu)) hle
        · rcases List.mem_cons.mp hu with rfl | hu
          · exact hle
          · exact Int.le_trans (hafter u hu) hle
      · rename_i hlt
        exact ⟨s, rfl, t :: before, after, rfl,
          List.forall_mem_cons.mpr ⟨Int.not_le.mp hlt, hbefore⟩, hafter⟩

/-! The answer. -/

section
variable {f : Field} {ctx : InferenceContext} {ss ss' : List Strategy} {s : Strategy}

/-- Whether a strategy finds anything. -/
def finds (f : Field) (ctx : InferenceContext) (s : Strategy) : Bool := !(s.infer f ctx).isEmpty

/-- Of the strategies that find anything, the one with the highest priority and the earliest of these. -/
def Answers (f : Field) (ctx : InferenceContext) (ss : List Strategy) (s : Strategy) : Prop :=
  ∃ before after, ss = before ++ s :: after ∧ finds f ctx s = true ∧
    (∀ t ∈ before, finds f ctx t = true → t.priority < s.priority) ∧
    ∀ t ∈ after, finds f ctx t = true → t.priority ≤ s.priority

lemma Answers.mem (h : Answers f ctx ss s) : s ∈ ss := by
  obtain ⟨before, after, rfl, -⟩ := h
  exact List.mem_append_right _ List.mem_cons_self

lemma Answers.found (h : Answers f ctx ss s) : finds f ctx s = true := by
  obtain ⟨-, -, -, hfinds, -⟩ := h
  exact hfinds

lemma Answers.le (h : Answers f ctx ss s) {t : Strategy} (ht : t ∈ ss) (hfinds : finds f ctx t = true) :
    t.priority ≤ s.priority := by
  obtain ⟨before, after, rfl, -, hbefore, hafter⟩ := h
  rcases List.mem_append.mp ht with ht | ht
  · exact Int.le_of_lt (hbefore t ht hfinds)
  · rcases List.mem_cons.mp ht with rfl | ht
    · exact Int.le_refl _
    · exact hafter t ht hfinds

lemma answers_of_isBest (h : IsBest (ss.filter (finds f ctx)) s) : Answers f ctx ss s := by
  obtain ⟨before, after, heq, hbefore, hafter⟩ := h
  obtain ⟨front, back, rfl, rfl, hback⟩ := List.filter_eq_append_iff.mp heq
  obtain ⟨skipped, rest, rfl, hskipped, hs, rfl⟩ := List.filter_eq_cons_iff.mp hback
  refine ⟨front ++ skipped, rest, by rw [List.append_assoc], hs, fun t ht hfinds => ?_,
    fun t ht hfinds => hafter t (List.mem_filter.mpr ⟨ht, hfinds⟩)⟩
  rcases List.mem_append.mp ht with ht | ht
  · exact hbefore t (List.mem_filter.mpr ⟨ht, hfinds⟩)
  · exact absurd hfinds (hskipped t ht)

lemma firstAnswer_eq (ss : List Strategy) :
    firstAnswer f ctx ss = ((ss.filter (finds f ctx)).head?.map (·.infer f ctx)).getD ∅ := by
  induction ss with
  | nil => rfl
  | cons s ss ih =>
    rw [firstAnswer, List.filter_cons, finds]
    cases (s.infer f ctx).isEmpty with
    | true => simpa using ih
    | false => simp

/-- Nobody finds anything, or the answer is that of the strategy that is to answer. -/
theorem firstAnswer_cases (f : Field) (ctx : InferenceContext) (ss : List Strategy) :
    (firstAnswer f ctx (ofStrategies ss).strategies = ∅ ∧ ∀ s ∈ ss, finds f ctx s = false) ∨
      ∃ s, Answers f ctx ss s ∧ firstAnswer f ctx (ofStrategies ss).strategies = s.infer f ctx := by
  rw [firstAnswer_eq, filter_strategies]
  by_cases hnone : ss.filter (finds f ctx) = []
  · refine .inl ⟨by rw [hnone]; rfl, fun s hs => ?_⟩
    exact eq_false_of_ne_true (List.filter_eq_nil_iff.mp hnone s hs)
  · obtain ⟨s, hhead, hbest⟩ := exists_isBest_head hnone
    exact .inr ⟨s, answers_of_isBest hbest, by rw [hhead]; rfl⟩

/-- Strategies that are told apart by their priorities answer alike in whatever order and number. -/
theorem firstAnswer_congr (hsame : ∀ s, s ∈ ss ↔ s ∈ ss')
    (hpriority : ∀ s ∈ ss, ∀ t ∈ ss, s.priority = t.priority → s = t) :
    firstAnswer f ctx (ofStrategies ss).strategies =
      firstAnswer f ctx (ofStrategies ss').strategies := by
  rcases firstAnswer_cases f ctx ss with ⟨heq, hnone⟩ | ⟨s, hs, heq⟩ <;>
    rcases firstAnswer_cases f ctx ss' with ⟨heq', hnone'⟩ | ⟨s', hs', heq'⟩
  · rw [heq, heq']
  · have hfinds := hs'.found
    rw [hnone s' ((hsame s').mpr hs'.mem)] at hfinds
    cases hfinds
  · have hfinds := hs.found
    rw [hnone' s ((hsame s).mp hs.mem)] at hfinds
    cases hfinds
  · -- Each of the two is among the others, so neither has the higher priority.
    have hmem : s' ∈ ss := (hsame s').mpr hs'.mem
    have hle : s.priority ≤ s'.priority := hs'.le ((hsame s).mp hs.mem) hs.found
    have hge : s'.priority ≤ s.priority := hs.le hmem hs'.found
    obtain rfl := hpriority s hs.mem s' hmem (Int.le_antisymm hle hge)
    rw [heq, heq']

end

/-! The known strategies. -/

lemma kind_of_priority {kind kind' : StrategyKind}
    (h : (Strategy.ofKind kind).priority = (Strategy.ofKind kind').priority) : kind = kind' := by
  cases kind <;> cases kind' <;> first | rfl | exact absurd h (by decide)

/-- No known strategy looks at which strategies are in use. -/
lemma infer_ofKind_withStrategies (kind : StrategyKind) (f : Field) (ctx : InferenceContext)
    (kinds : List StrategyKind) : (Strategy.ofKind kind).infer f ctx =
      (Strategy.ofKind kind).infer f { ctx with options := { ctx.options with strategies := kinds } } := by
  cases kind <;> rfl

lemma firstAnswer_ofOptions {o o' : InferenceOptions}
    (hkinds : ∀ kind, kind ∈ o.strategies ↔ kind ∈ o'.strategies) (f : Field) (ctx : InferenceContext) :
    firstAnswer f ctx (ofOptions o).strategies = firstAnswer f ctx (ofOptions o').strategies := by
  refine firstAnswer_congr (fun s => ?_) fun s hs t ht hpriority => ?_
  · simp only [List.mem_map, hkinds]
  · obtain ⟨kind, -, rfl⟩ := List.mem_map.mp hs
    obtain ⟨kind', -, rfl⟩ := List.mem_map.mp ht
    rw [kind_of_priority hpriority]

/-- The types of a property of a class are those of the strategy with the highest priority among those
that find any, the earliest of equal ones, and none if no strategy finds any. The order of strategies with
different priorities does not count, and neither do order and number of the kinds in the options. -/
theorem infer_by_priority (p : Property) (c : ClassLike) (ctx : InferenceContext)
    (ss : List Strategy) :
    (∃ types, (ofStrategies ss).infer (.inClass p c) ctx = .ok types ∧
      (types = ∅ ∧ (∀ s ∈ ss, finds (.inClass p c) ctx s = false) ∨
        ∃ s, Answers (.inClass p c) ctx ss s ∧ types = s.infer (.inClass p c) ctx)) ∧
    (∀ ss', ss.Perm ss' → ss.Pairwise (fun s t => s.priority ≠ t.priority) →
      (ofStrategies ss).infer (.inClass p c) ctx = (ofStrategies ss').infer (.inClass p c) ctx) ∧
    ∀ o o' : InferenceOptions, (∀ kind, kind ∈ o.strategies ↔ kind ∈ o'.strategies) → ∀ kinds,
      (ofOptions o).infer (.inClass p c) ctx = (ofOptions o').infer (.inClass p c)
        { ctx with options := { ctx.options with strategies := kinds } } := by
  refine ⟨⟨_, rfl, ?_⟩, fun ss' hperm hdistinct => ?_, fun o o' hkinds kinds => ?_⟩
  · rcases firstAnswer_cases (.inClass p c) ctx ss with ⟨heq, hnone⟩ | ⟨s, hs, heq⟩
    · exact .inl ⟨heq, hnone⟩
    · exact .inr ⟨s, hs, heq⟩
  · refine congrArg Except.ok (firstAnswer_congr (fun s => hperm.mem_iff) fun s hs t ht heq => ?_)
    exact List.inj_on_of_nodup_map (List.pairwise_map.mpr hdistinct) hs ht heq
  · refine congrArg Except.ok ((firstAnswer_ofOptions hkinds _ ctx).trans ?_)
    refine firstAnswer_of_infer_eq fun s hs => ?_
    obtain ⟨kind, -, rfl⟩ := exists_kind hs
    exact infer_ofKind_withStrategies kind _ ctx kinds

/-- The strategy that would go first finds nothing, and the two that are left may be given in either
order; and a kind may be given twice. -/
theorem infer_by_priority_in_either_order :
    let fixed (priority : Int) (types : TypeSet) : Strategy := ⟨"fixed", priority, fun _ _ => types⟩
    let ss : List Strategy :=
      [fixed 1 (.ofNames ["int"]), fixed 10 ∅, fixed 5 (.ofNames ["string"])]
    let p : Property := .named "value"
    let c : ClassLike := .named "App\\Box"
    let ctx : InferenceContext := ⟨.syntactic, default⟩
    let o : InferenceOptions := { strategies := [.allAssign, .constructorParam, .allAssign] }
    (ss.Perm ss.reverse ∧ ss.Pairwise (fun s t => s.priority ≠ t.priority) ∧
      (ofStrategies ss).infer (.inClass p c) ctx = .ok (.ofNames ["string"]) ∧
      (ofStrategies ss).infer (.inClass p c) ctx = (ofStrategies ss.reverse).infer (.inClass p c) ctx) ∧
    (∀ kind, kind ∈ o.strategies ↔ kind ∈ ctx.options.strategies) ∧
      (ofOptions o).infer (.inClass p c) ctx = (ofOptions default).infer (.inClass p c) ctx := by
  intro fixed ss p c ctx o
  obtain ⟨-, horder, hoptions⟩ := infer_by_priority p c ctx ss
  have hperm : ss.Perm ss.reverse := (List.reverse_perm ss).symm
  have hdistinct : ss.Pairwise fun s t => s.priority ≠ t.priority := by simp [ss, fixed]
  have hkinds : ∀ kind, kind ∈ o.strategies ↔ kind ∈ ctx.options.strategies := by
    intro kind
    cases kind <;> decide
  exact ⟨⟨hperm, hdistinct, rfl, horder ss.reverse hperm hdistinct⟩, hkinds,
    hoptions o ctx.options hkinds ctx.options.strategies⟩

end Inferer
end DocTypes
