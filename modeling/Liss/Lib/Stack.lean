/-
Searches with a stack. A search takes the item on top, updates its state and puts new items on top, until the stack is
empty. `run` bounds the number of rounds by a fuel argument; `none` means that the fuel ran out.

- `run_inv`: what every round preserves holds at the end;
- `run_mono`: more fuel does not change the result;
- `run_total`: a search ends if every round decreases a measure, or does not increase it and puts nothing on the stack.
-/
import Mathlib.Tactic

namespace Liss.Stack

variable {α β : Type*}

/-- at most `fuel - 1` rounds -/
def run (step : β → α → β × List α) : ℕ → β → List α → Option β
  | 0, _, _ => none
  | _ + 1, b, [] => some b
  | fuel + 1, b, a :: q => run step fuel (step b a).1 ((step b a).2 ++ q)

variable {step : β → α → β × List α}

/-- **Invariant rule.** -/
theorem run_inv (I : β → List α → Prop) (hstep : ∀ b a q, I b (a :: q) → I (step b a).1 ((step b a).2 ++ q)) {fuel : ℕ}
    {b r : β} {q : List α} (h0 : I b q) (h : run step fuel b q = some r) : I r [] := by
  induction fuel generalizing b q with
  | zero => exact absurd h (by simp [run])
  | succ fuel ih =>
    cases q with
    | nil =>
      obtain rfl := Option.some.inj h
      exact h0
    | cons a q => exact ih (hstep b a q h0) h

theorem run_mono {fuel fuel' : ℕ} {b r : β} {q : List α} (hle : fuel ≤ fuel') (h : run step fuel b q = some r) :
    run step fuel' b q = some r := by
  induction fuel generalizing fuel' b q with
  | zero => exact absurd h (by simp [run])
  | succ fuel ih =>
    obtain ⟨k, rfl⟩ := Nat.exists_eq_succ_of_ne_zero (show fuel' ≠ 0 by omega)
    cases q with
    | nil => exact h
    | cons a q =>
      show run step k (step b a).1 ((step b a).2 ++ q) = some r
      exact ih (by omega) h

/-- **Termination rule.** -/
theorem run_total (I : β → List α → Prop) (μ : β → ℕ)
    (hstep : ∀ b a q, I b (a :: q) → I (step b a).1 ((step b a).2 ++ q) ∧
      (μ (step b a).1 < μ b ∨ μ (step b a).1 ≤ μ b ∧ (step b a).2 = [])) {b : β} {q : List α} (h0 : I b q) :
    ∃ bound, ∀ fuel ≥ bound, ∃ r, run step fuel b q = some r := by
  induction hn : μ b using Nat.strong_induction_on generalizing b q with
  | _ n ih =>
    -- as long as nothing is pushed the stack gets smaller
    induction q generalizing b n with
    | nil =>
      refine ⟨1, fun fuel hfuel => ?_⟩
      obtain ⟨k, rfl⟩ := Nat.exists_eq_succ_of_ne_zero (Nat.ne_of_gt hfuel)
      exact ⟨b, rfl⟩
    | cons a q ihq =>
      obtain ⟨hi, hμ⟩ := hstep b a q h0
      have hrest : ∃ bound, ∀ fuel ≥ bound, ∃ r, run step fuel (step b a).1 ((step b a).2 ++ q) = some r := by
        rcases hμ with hlt | ⟨hle, hnil⟩
        · exact ih _ (hn ▸ hlt) hi rfl
        · rw [hnil] at hi ⊢
          rcases Nat.lt_or_eq_of_le hle with hlt | heq
          · exact ih _ (hn ▸ hlt) hi rfl
          · exact ihq n ih hi (heq.trans hn)
      obtain ⟨bound, hbound⟩ := hrest
      refine ⟨bound + 1, fun fuel hfuel => ?_⟩
      obtain ⟨k, rfl⟩ := Nat.exists_eq_succ_of_ne_zero (show fuel ≠ 0 by omega)
      exact hbound k (by omega)

end Liss.Stack
