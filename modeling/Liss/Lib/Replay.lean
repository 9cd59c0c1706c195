/-
A bit that events set and clear, starting from clear.

- `replay_iff`: the bit is set iff some event sets it and no later one clears it.
-/
import Liss.Lib.Since

namespace Liss

variable {α : Type*} {f : α → Option Bool} {ev : List α}

/-- the bit after the events; an event writes it or leaves it alone -/
def replay (f : α → Option Bool) (ev : List α) : Bool := ev.foldl (fun b x => (f x).getD b) false

@[simp] theorem replay_nil : replay f [] = false := rfl

@[simp] theorem replay_snoc (x : α) : replay f (ev ++ [x]) = (f x).getD (replay f ev) := by
  simp [replay, List.foldl_append]

theorem replay_iff :
    replay f ev = true ↔ ∃ pre x post, ev = pre ++ x :: post ∧ f x = some true ∧ ∀ y ∈ post, f y ≠ some false := by
  induction ev using List.reverseRecOn with
  | nil => simp
  | append_singleton ev z ih =>
    rw [replay_snoc]
    cases hz : f z with
    | none =>
      -- the event leaves the bit alone
      rw [Option.getD_none, ih]
      constructor
      · rintro ⟨pre, x, post, rfl, hx, hpost⟩
        refine ⟨pre, x, post ++ [z], by simp, hx, fun y hy => ?_⟩
        rcases List.mem_append.1 hy with hy | hy
        · exact hpost y hy
        · rw [List.mem_singleton.1 hy, hz]
          simp
      · rintro ⟨pre, x, post, heq, hx, hpost⟩
        rcases snoc_eq_append_cons.1 heq with ⟨-, rfl, -⟩ | ⟨post', rfl, rfl⟩
        · simp [hz] at hx
        · exact ⟨pre, x, post', rfl, hx, fun y hy => hpost y (by simp [hy])⟩
    | some b =>
      rw [Option.getD_some]
      constructor
      · rintro rfl
        exact ⟨ev, z, [], rfl, hz, by simp⟩
      · rintro ⟨pre, x, post, heq, hx, hpost⟩
        rcases snoc_eq_append_cons.1 heq with ⟨-, rfl, -⟩ | ⟨post', rfl, rfl⟩
        · exact Option.some.inj (hz.symm.trans hx)
        · have := hpost z (by simp)
          rw [hz] at this
          cases b
          · exact absurd rfl this
          · rfl

end Liss
