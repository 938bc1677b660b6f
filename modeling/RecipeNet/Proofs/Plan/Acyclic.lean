import Mathlib.Algebra.Order.BigOperators.Group.List
import Mathlib.Algebra.Order.Ring.Nat
import Mathlib.Data.Finset.Card
import Mathlib.Logic.Relation
import RecipeNet.Proofs.Plan.Document

/-!
Plans without cycles. A step leads from each of its input places to each of its output
places. If no way along the steps of a plan comes back to where it began, the places can be
given weights such that an input weighs more than all outputs of its step together.
-/

namespace RecipeNet

mutual
/-- How many plans are nested in each other, the outermost one included. -/
def Plan.levels : Plan → Nat
  | ⟨_, _, _, steps⟩ => StepSpec.levels steps + 1

def StepSpec.levels : List StepSpec → Nat
  | [] => 0
  | ⟨_, _, _, _, kind⟩ :: rest => max (StepKind.levels kind) (StepSpec.levels rest)

def StepKind.levels : StepKind → Nat
  | .nested plan _ => Plan.levels plan
  | _ => 0
end

namespace Plan

variable {plan inner : Plan} {step : StepSpec} {results : ResultMap} {a b : String}

/-- A step takes tokens from one place and puts tokens into the other. -/
def Edge (plan : Plan) (a b : String) : Prop :=
  ∃ step ∈ plan.steps, a ∈ step.inputs ∧ b ∈ step.outputs

/-- No way along the steps of a plan, or of a plan nested in it, comes back to a place. -/
inductive Acyclic : Plan → Prop
  | intro {plan : Plan} (free : ∀ place, ¬ Relation.TransGen plan.Edge place place)
      (nested : ∀ step ∈ plan.steps, ∀ inner results, step.kind = .nested inner results →
        Acyclic inner) : Acyclic plan

/-- Places that can be ordered along the steps are on no cycle. -/
theorem free_of_rank (rank : String → Nat)
    (rises : ∀ step ∈ plan.steps, ∀ a ∈ step.inputs, ∀ b ∈ step.outputs, rank a < rank b)
    (place : String) : ¬ Relation.TransGen plan.Edge place place := by
  have hway : ∀ b, Relation.TransGen plan.Edge place b → rank place < rank b := by
    intro b h
    induction h with
    | single h =>
      obtain ⟨step, hstep, ha, hb⟩ := h
      exact rises step hstep _ ha _ hb
    | tail _ h ih =>
      obtain ⟨step, hstep, ha, hb⟩ := h
      exact ih.trans (rises step hstep _ ha _ hb)
  exact fun h => lt_irrefl _ (hway place h)

theorem levels_le {steps : List StepSpec} (h : step ∈ steps) :
    step.kind.levels ≤ StepSpec.levels steps := by
  induction steps with
  | nil => cases h
  | cons first rest ih =>
    obtain ⟨id, name, inputs, outputs, kind⟩ := first
    rw [StepSpec.levels]
    rcases List.mem_cons.1 h with rfl | hrest
    · exact Nat.le_max_left ..
    · exact (ih hrest).trans (Nat.le_max_right ..)

theorem levels_lt (h : step ∈ plan.steps) (nested : step.kind = .nested inner results) :
    inner.levels < plan.levels := by
  have hle := levels_le h
  rw [nested, StepKind.levels] at hle
  cases plan with
  | mk => rw [Plan.levels]; exact Nat.lt_succ_of_le hle

theorem levels_pos (plan : Plan) : 0 < plan.levels := by
  cases plan with
  | mk => rw [Plan.levels]; exact Nat.succ_pos _

open scoped Classical in
noncomputable def reach (plan : Plan) (a : String) : Finset String :=
  (plan.steps.flatMap (·.outputs)).toFinset.filter (Relation.TransGen plan.Edge a)

theorem mem_reach : b ∈ plan.reach a ↔ Relation.TransGen plan.Edge a b := by
  classical
  rw [reach, Finset.mem_filter, List.mem_toFinset, List.mem_flatMap, and_iff_right_iff_imp]
  intro hway
  obtain ⟨c, -, step, hstep, -, hb⟩ := Relation.TransGen.tail'_iff.1 hway
  exact ⟨step, hstep, hb⟩

/-- Along a step there is less to reach. -/
theorem reach_lt (free : ∀ place, ¬ Relation.TransGen plan.Edge place place)
    (h : plan.Edge a b) : (plan.reach b).card < (plan.reach a).card := by
  refine Finset.card_lt_card ⟨fun c hc => ?_, fun hsub => ?_⟩
  · exact mem_reach.2 (.head h (mem_reach.1 hc))
  · exact free b (mem_reach.1 (hsub (mem_reach.2 (.single h))))

def width (plan : Plan) : Nat := (plan.steps.map (·.outputs.length)).sum + 1

/-- A weight of places: what is further from the end of a plan weighs more. -/
noncomputable def weight (plan : Plan) (a : String) : Nat := plan.width ^ (plan.reach a).card

theorem weight_outputs (free : ∀ place, ¬ Relation.TransGen plan.Edge place place)
    (hstep : step ∈ plan.steps) (ha : a ∈ step.inputs) :
    (step.outputs.map plan.weight).sum < plan.weight a := by
  have hwidth : step.outputs.length < plan.width :=
    Nat.lt_succ_of_le (List.le_sum_of_mem (List.mem_map_of_mem hstep))
  have hpos : 0 < plan.width := Nat.succ_pos _
  cases hcard : (plan.reach a).card with
  | zero =>
    have hnone : step.outputs = [] := by
      refine List.eq_nil_iff_forall_not_mem.2 fun b hb => ?_
      have hlt := reach_lt free ⟨step, hstep, ha, hb⟩
      rw [hcard] at hlt
      exact Nat.not_lt_zero _ hlt
    rw [hnone]
    exact Nat.pow_pos hpos
  | succ n =>
    have hle : ∀ w ∈ step.outputs.map plan.weight, w ≤ plan.width ^ n := by
      intro w hw
      obtain ⟨b, hb, rfl⟩ := List.mem_map.1 hw
      have hlt := reach_lt free ⟨step, hstep, ha, hb⟩
      rw [hcard] at hlt
      exact Nat.pow_le_pow_right hpos (Nat.le_of_lt_succ hlt)
    have hsum := List.sum_le_card_nsmul _ _ hle
    rw [List.length_map, nsmul_eq_mul, Nat.cast_id] at hsum
    rw [weight, hcard, pow_succ, mul_comm]
    exact hsum.trans_lt (Nat.mul_lt_mul_of_pos_right hwidth (Nat.pow_pos hpos))

end Plan
end RecipeNet
