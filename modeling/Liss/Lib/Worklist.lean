/-
Worklist algorithms. A worklist algorithm takes the first item of a queue, updates its state and appends new items to
the queue, until the queue is empty. `run` bounds the number of iterations by a fuel argument; `none` means that the
fuel ran out (or that a step failed).

- `run_inv`: what every iteration preserves holds of the result;
- `run_total`: a measure that every iteration decreases bounds the fuel that is needed;
- `run_mono`, `run_le`, `run_congr`: more fuel, a step that fails less often, or a step that agrees under an invariant,
  does not change a result.
Two measures cover the algorithms met here: `weight_lt` (items whose successors weigh less in total) and
`unseen_lt` (a set of seen items that grows).
-/
import Mathlib.Tactic

namespace Liss.Worklist

variable {α β : Type*}

/-- process the queue front to back, at most `fuel - 1` items -/
def run (step : β → α → Option (β × List α)) : ℕ → β → List α → Option β
  | 0, _, _ => none
  | _ + 1, b, [] => some b
  | fuel + 1, b, a :: q =>
    match step b a with
    | none => none
    | some (b', new) => run step fuel b' (q ++ new)

@[simp] theorem run_zero (step : β → α → Option (β × List α)) (b : β) (q : List α) : run step 0 b q = none := rfl

@[simp] theorem run_nil (step : β → α → Option (β × List α)) (fuel : ℕ) (b : β) : run step (fuel + 1) b [] = some b :=
  rfl

theorem run_cons {step : β → α → Option (β × List α)} {fuel : ℕ} {b : β} {a : α} {q : List α} {r : β}
    (h : run step (fuel + 1) b (a :: q) = some r) :
    ∃ b' new, step b a = some (b', new) ∧ run step fuel b' (q ++ new) = some r := by
  rw [run] at h
  split at h
  · exact absurd h (by simp)
  · rename_i b' new hs
    exact ⟨b', new, hs, h⟩

theorem run_step {step : β → α → Option (β × List α)} {b b' : β} {a : α} {new : List α}
    (hs : step b a = some (b', new)) (fuel : ℕ) (q : List α) :
    run step (fuel + 1) b (a :: q) = run step fuel b' (q ++ new) := by
  rw [run, hs]

/-- **Invariant rule.** -/
theorem run_inv {step : β → α → Option (β × List α)} (I : β → List α → Prop)
    (hstep : ∀ b a q b' new, I b (a :: q) → step b a = some (b', new) → I b' (q ++ new))
    {fuel : ℕ} {b : β} {q : List α} {r : β} (h0 : I b q) (h : run step fuel b q = some r) : I r [] := by
  induction fuel generalizing b q with
  | zero => simp at h
  | succ fuel ih =>
    cases q with
    | nil =>
      simp only [run_nil, Option.some.injEq] at h
      exact h ▸ h0
    | cons a q =>
      obtain ⟨b', new, hs, hr⟩ := run_cons h
      exact ih (hstep b a q b' new h0 hs) hr

/-- **Termination rule.** If, under an invariant, every iteration succeeds and decreases `μ`, then any fuel above `μ`
gives a result. -/
theorem run_total {step : β → α → Option (β × List α)} (I : β → List α → Prop) (μ : β → List α → ℕ)
    (hstep : ∀ b a q, I b (a :: q) →
      ∃ b' new, step b a = some (b', new) ∧ I b' (q ++ new) ∧ μ b' (q ++ new) < μ b (a :: q))
    {fuel : ℕ} {b : β} {q : List α} (h0 : I b q) (hf : μ b q < fuel) : ∃ r, run step fuel b q = some r := by
  induction fuel generalizing b q with
  | zero => exact absurd hf (Nat.not_lt_zero _)
  | succ fuel ih =>
    cases q with
    | nil => exact ⟨b, rfl⟩
    | cons a q =>
      obtain ⟨b', new, hs, hi, hμ⟩ := hstep b a q h0
      rw [run_step hs]
      exact ih hi (by omega)

theorem run_mono {step : β → α → Option (β × List α)} {fuel fuel' : ℕ} {b : β} {q : List α} {r : β}
    (h : run step fuel b q = some r) (hle : fuel ≤ fuel') : run step fuel' b q = some r := by
  induction fuel generalizing b q fuel' with
  | zero => simp at h
  | succ fuel ih =>
    obtain ⟨fuel', rfl⟩ : ∃ k, fuel' = k + 1 := ⟨fuel' - 1, by omega⟩
    cases q with
    | nil => simpa using h
    | cons a q =>
      obtain ⟨b', new, hs, hr⟩ := run_cons h
      rw [run_step hs]
      exact ih hr (by omega)

/-- a step that succeeds wherever `step` does, with the same result, gives the same run -/
theorem run_le {step step' : β → α → Option (β × List α)}
    (hle : ∀ b a p, step b a = some p → step' b a = some p) {fuel : ℕ} {b : β} {q : List α} {r : β}
    (h : run step fuel b q = some r) : run step' fuel b q = some r := by
  induction fuel generalizing b q with
  | zero => simp at h
  | succ fuel ih =>
    cases q with
    | nil => simpa using h
    | cons a q =>
      obtain ⟨b', new, hs, hr⟩ := run_cons h
      rw [run_step (hle _ _ _ hs)]
      exact ih hr

/-- steps that agree as long as an invariant holds give the same run -/
theorem run_congr {step step' : β → α → Option (β × List α)} (I : β → List α → Prop)
    (heq : ∀ b a q, I b (a :: q) → step' b a = step b a)
    (hstep : ∀ b a q b' new, I b (a :: q) → step b a = some (b', new) → I b' (q ++ new))
    {fuel : ℕ} {b : β} {q : List α} (h0 : I b q) : run step' fuel b q = run step fuel b q := by
  induction fuel generalizing b q with
  | zero => rfl
  | succ fuel ih =>
    cases q with
    | nil => rfl
    | cons a q =>
      rw [run, run, heq b a q h0]
      cases hs : step b a with
      | none => rfl
      | some p => exact ih (hstep b a q p.1 p.2 h0 hs)

/-! ## Measures -/

/-- total weight of a queue -/
def weight (w : α → ℕ) (q : List α) : ℕ := (q.map w).sum

@[simp] theorem weight_nil (w : α → ℕ) : weight w [] = 0 := rfl

@[simp] theorem weight_cons (w : α → ℕ) (a : α) (q : List α) : weight w (a :: q) = w a + weight w q := by
  simp [weight]

@[simp] theorem weight_append (w : α → ℕ) (p q : List α) : weight w (p ++ q) = weight w p + weight w q := by
  simp [weight]

theorem weight_le {w : α → ℕ} {q : List α} {k m : ℕ} (hlen : q.length ≤ k) (hw : ∀ a ∈ q, w a ≤ m) :
    weight w q ≤ k * m :=
  calc weight w q ≤ q.length * m := by
        have := List.sum_le_card_nsmul (q.map w) m (by simpa using hw)
        simpa [weight] using this
    _ ≤ k * m := Nat.mul_le_mul_right m hlen

/-- `k` new items of weight at most `m` against an old one of weight above `k * m` -/
theorem weight_lt {w : α → ℕ} {a : α} {q new : List α} {k m : ℕ} (hlen : new.length ≤ k) (hw : ∀ x ∈ new, w x ≤ m)
    (ha : k * m < w a) : weight w (q ++ new) < weight w (a :: q) := by
  have := weight_le hlen hw
  simp only [weight_append, weight_cons]
  omega

/-- the geometric weight of an item at depth `d` of a tree of height `n` whose nodes have at most `k` children -/
def depthWeight (k n d : ℕ) : ℕ := (k + 1) ^ (n - d)

theorem depthWeight_pos (k n d : ℕ) : 0 < depthWeight k n d := Nat.pow_pos (Nat.succ_pos k)

theorem mul_depthWeight_lt {k n d : ℕ} (h : d < n) : k * depthWeight k n (d + 1) < depthWeight k n d := by
  have he : n - d = (n - (d + 1)) + 1 := by omega
  have hpos := depthWeight_pos k n (d + 1)
  calc k * depthWeight k n (d + 1) < (k + 1) * depthWeight k n (d + 1) := by
        exact Nat.mul_lt_mul_of_pos_right (Nat.lt_succ_self k) hpos
    _ = depthWeight k n d := by rw [depthWeight, depthWeight, he, pow_succ, Nat.mul_comm]

/-- how many elements of a finite universe are still unseen -/
def unseen [DecidableEq α] (univ seen : List α) : ℕ := (univ.filter (fun a => a ∉ seen)).length

theorem unseen_lt [DecidableEq α] {univ seen : List α} {a : α} (ha : a ∈ univ) (hs : a ∉ seen) :
    unseen univ (a :: seen) < unseen univ seen := by
  have hsub : univ.filter (fun b => b ∉ a :: seen) = (univ.filter (fun b => b ∉ seen)).filter (fun b => b ≠ a) := by
    rw [List.filter_filter]
    apply List.filter_congr
    intro b _
    simp [not_or]
  rw [unseen, unseen, hsub]
  refine List.length_filter_lt_length_iff_exists.2 ⟨a, ?_, by simp⟩
  simpa using ⟨ha, hs⟩

end Liss.Worklist
