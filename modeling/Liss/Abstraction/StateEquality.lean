/-
`concurrent_state::operator==`: two states are equal if they agree in everything but the reward. No step of the product
automaton looks at the reward, so states that are equal in this sense behave alike.

- `respects_eraseReward`: the product automaton respects this equality, which is what the searches over it rely on.
-/
import Liss.Abstraction.ConcurrentAutomaton
import Liss.Lib.Keyed

namespace Liss

/-- the part of a state that `operator==` looks at -/
def ConcurrentState.eraseReward (s : ConcurrentState) : ConcurrentState := { s with reward := 0 }

namespace ConcurrentState

theorem pos_eraseReward (s : ConcurrentState) (thread : ℕ) : s.eraseReward.pos thread = s.pos thread := rfl

end ConcurrentState

namespace ConcurrentAutomaton

open ConcurrentState

variable (a : ConcurrentAutomaton) (s : ConcurrentState) (sigma : Symbol)

theorem mustSucceed_eraseReward : mustSucceed s.eraseReward sigma = mustSucceed s sigma := rfl

theorem blocked_eraseReward : blocked s.eraseReward sigma = blocked s sigma := rfl

theorem applyOperation_eraseReward :
    applyOperation s.eraseReward sigma = ((applyOperation s sigma).1.eraseReward, (applyOperation s sigma).2) := by
  have hlocks : s.eraseReward.locks = s.locks := rfl
  have hcond : s.eraseReward.conditionals = s.conditionals := rfl
  unfold applyOperation
  cases sigma.operation with
  | lock =>
    simp only [hlocks]
    split_ifs <;> rfl
  | waitReset =>
    simp only [hcond]
    split_ifs <;> rfl
  | wait =>
    simp only [hcond]
    split_ifs <;> rfl
  | waitNot =>
    simp only [hcond]
    split_ifs <;> rfl
  | _ => rfl

/-- the result of `apply_symbol` on the state without reward -/
def eraseResult : Option (ConcurrentState × Bool) → Option (ConcurrentState × Bool) :=
  Option.map fun p => (p.1.eraseReward, p.2)

theorem applySymbol_eraseReward :
    a.applySymbol s.eraseReward sigma = (a.applySymbol s sigma).map eraseResult := by
  unfold applySymbol
  rw [mustSucceed_eraseReward, blocked_eraseReward, applyOperation_eraseReward]
  split_ifs
  · rfl
  · rfl
  · have hmon : (applyOperation s sigma).1.eraseReward.toMonitor = (applyOperation s sigma).1.toMonitor := rfl
    simp only [hmon]
    rcases a.applyBadTraceDnf (applyOperation s sigma).1.toMonitor sigma with e | ⟨_ | m⟩
    · rfl
    · rfl
    · rfl

theorem deadlockStates_eraseReward (thread : ℕ) :
    (a.deadlockStates s.eraseReward thread).map eraseReward = (a.deadlockStates s thread).map eraseReward := by
  unfold deadlockStates
  rw [pos_eraseReward]
  split_ifs
  · rfl
  · rfl

/-- the states after a move agree up to their reward -/
theorem moveThread_eraseReward (thread : ℕ) (p : RewardState) :
    (a.moveThread s.eraseReward thread p).eraseReward = (a.moveThread s thread p).eraseReward := rfl

theorem intSuccessors_eraseReward :
    (a.intSuccessors s.eraseReward sigma).map (List.map eraseReward) =
      (a.intSuccessors s sigma).map (List.map eraseReward) := by
  have hcurrent : s.eraseReward.current = s.current := rfl
  simp only [intSuccessors, hcurrent, applySymbol_eraseReward]
  split_ifs
  · rfl
  · rcases a.applySymbol s sigma with e | ⟨_ | ⟨next, progress⟩⟩
    · rfl
    · rfl
    · cases progress with
      | false => rfl
      | true =>
        have hmove : ∀ p, (a.moveThread next.eraseReward sigma.threadId p :: a.deadlockStates
              (a.moveThread next.eraseReward sigma.threadId p) sigma.threadId).map eraseReward =
            (a.moveThread next sigma.threadId p ::
              a.deadlockStates (a.moveThread next sigma.threadId p) sigma.threadId).map eraseReward := by
          intro p
          have hm := moveThread_eraseReward a next sigma.threadId p
          rw [List.map_cons, List.map_cons, hm, ← deadlockStates_eraseReward a (a.moveThread next.eraseReward _ p), hm,
            deadlockStates_eraseReward]
        simp only [eraseResult, Except.map, Option.map_some, pos_eraseReward, Bool.not_true, Bool.false_eq_true,
          if_false, List.map_flatMap, hmove]

/-- **Equal states behave alike.** -/
theorem respects_eraseReward : a.automaton.Respects eraseReward := by
  have hnext : ∀ s : ConcurrentState, a.intNextSymbols s = a.intNextSymbols s.eraseReward := fun _ => rfl
  have hfinal : ∀ s : ConcurrentState, a.intIsFinalState s = a.intIsFinalState s.eraseReward := fun _ => rfl
  have hsucc : ∀ (s : ConcurrentState) (sigma : Symbol),
      (a.automaton.succ s.eraseReward sigma).map eraseReward = (a.automaton.succ s sigma).map eraseReward := by
    intro s sigma
    have h := intSuccessors_eraseReward a s sigma
    simp only [automaton]
    cases h1 : a.intSuccessors s.eraseReward sigma with
    | error e1 =>
      cases h2 : a.intSuccessors s sigma with
      | error e2 => rfl
      | ok l2 =>
        rw [h1, h2] at h
        cases h
    | ok l1 =>
      cases h2 : a.intSuccessors s sigma with
      | error e2 =>
        rw [h1, h2] at h
        cases h
      | ok l2 =>
        rw [h1, h2] at h
        exact Except.ok.inj h
  refine ⟨fun s t h => ?_, fun s t h => ?_, fun s t h sigma => ?_⟩
  · exact (hfinal s).trans ((congrArg a.intIsFinalState h).trans (hfinal t).symm)
  · exact (hnext s).trans ((congrArg a.intNextSymbols h).trans (hnext t).symm)
  · rw [← hsucc s, ← hsucc t, h]

end ConcurrentAutomaton

end Liss
