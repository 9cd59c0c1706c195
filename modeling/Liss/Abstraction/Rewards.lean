/-
The reward that a run of the concurrent automaton accumulates, in a `reward_t`.

Each thread can have earned at most the potential of its position, whichever way it got there, so that a run earns at
most the maximal distances of its threads together. There is no such bound from below: a loop may cost more than it
earns, and a reward that falls below the lowest `reward_t` comes back as the highest.

- `Accounted`: where the threads are, and the bound that this gives; a step keeps it, if it can be afforded;
- `loopsNeverPay_iff`: loops do not pay exactly if no state is left over a single back edge; then the reward of a run is
  bounded exactly if each of its steps can be afforded;
- `readRound_pays`, `storeRound_wraps`: a loop that is not charged, and one that is charged too often.
-/
import Liss.Abstraction.Steps
import Liss.Cfg.EdgeNumbers
import Liss.Cfg.Rewards

namespace Liss

namespace ConcurrentAutomaton

open AbstractCfg

/-- the threads are the reducible CFGs that `minimise(false)` makes of prepared ones -/
def Minimised (a : ConcurrentAutomaton) : Prop :=
  ∀ i < a.threads.length, ∃ (c : AbstractCfg) (fuel : ℕ), c.Prepared ∧ c.threadId = i ∧
    c.minimise false fuel = some (a.thread i) ∧
    Reducible (a.thread i).HasEdge 1

/-- the range of a `reward_t` -/
def lowestReward : ℤ := -2 ^ 15
def highestReward : ℤ := 2 ^ 15 - 1

/-- what a step earns: nothing if the thread yields, and else what its automaton gives for the symbol -/
def earned (a : ConcurrentAutomaton) (t : Trans ConcurrentState Symbol) : ℤ :=
  if conditionalYield t.sym && !mustSucceed t.src t.sym then 0
  else (((a.thread t.sym.threadId).intSuccessors (t.src.pos t.sym.threadId) t.sym).map RewardState.reward).sum

/-- the maximal distances of the threads together -/
def maxReward (a : ConcurrentAutomaton) : ℤ := ∑ i ∈ Finset.range a.threads.length, (a.thread i).maxDistance

/-- what a step costs can be taken from the reward -/
def Affords (a : ConcurrentAutomaton) (t : Trans ConcurrentState Symbol) : Prop :=
  lowestReward ≤ t.src.reward + a.earned t

variable {a : ConcurrentAutomaton}

/-! ## Rewards of 16 bits -/

theorem toReward_eq {x : ℤ} (hlow : lowestReward ≤ x) (hhigh : x ≤ highestReward) : toReward x = x := by
  unfold lowestReward at hlow
  unfold highestReward at hhigh
  exact Int.bmod_eq_of_le_mul_two (by omega) (by omega)

theorem Yields.reward {t : Trans ConcurrentState Symbol} (hy : Yields t) :
    t.dst.reward = t.src.reward ∧ a.earned t = 0 := by
  rw [hy.dst, earned, hy.op, hy.may]
  exact ⟨rfl, rfl⟩

/-- a step that executes its symbol earns the reward of the position that the thread gets to -/
theorem Executes.reward {t : Trans ConcurrentState Symbol} (he : a.Executes t) :
    ∃ p ∈ (a.thread t.sym.threadId).intSuccessors (t.src.pos t.sym.threadId) t.sym, a.earned t = p.reward ∧
      t.dst.reward = toReward (t.src.reward + p.reward) ∧
      (t.sym.threadId < t.src.threads.length →
        t.dst.pos t.sym.threadId = p.state ∨ t.dst.pos t.sym.threadId = noState) := by
  obtain ⟨m, -, p, hp, hdst⟩ := he.dst
  refine ⟨p, hp, ?_, ?_, fun hlt => ?_⟩
  · have hlen := (a.thread t.sym.threadId).intSuccessors_length_le (t.src.pos t.sym.threadId) t.sym
    have hyields : (conditionalYield t.sym && !mustSucceed t.src t.sym) = false := by
      cases hop : conditionalYield t.sym with
      | false => rfl
      | true => simp [he.must hop]
    obtain ⟨q, hq⟩ := List.length_eq_one_iff.1 (le_antisymm hlen (List.length_pos_of_mem hp))
    obtain rfl : p = q := by simpa [hq] using hp
    simp [earned, hyields, hq]
  · rcases hdst with hd | ⟨-, -, hd⟩ <;> rw [hd] <;> rfl
  · rcases hdst with hd | ⟨-, -, hd⟩
    · rw [hd]
      exact Or.inl (executed_pos hlt)
    · rw [hd, ConcurrentState.pos_setPos, if_pos ⟨rfl, by simpa [executed] using hlt⟩]
      exact Or.inr rfl

theorem Minimised.framed (ha : a.Minimised) {i : ℕ} (hi : i < a.threads.length) :
    (a.thread i).Framed ∧ (a.thread i).threadId = i := by
  obtain ⟨c, fuel, hc, hid, h, -⟩ := ha i hi
  exact ⟨hc.framed.minimise h, (sameSize_minimise h).threadId.trans hid⟩

/-- the thread of a symbol that is offered at a position -/
theorem threadId_of_offered {m : AbstractCfg} (hm : m.Framed) {p : ℤ} (hp : m.Position p) {sigma : Symbol}
    (h : sigma ∈ m.intNextSymbols p) : sigma.threadId = m.threadId := by
  have hact : ∀ u, u ≠ noState → (m.getState u).action = some sigma → sigma.threadId = m.threadId := by
    intro u hu ha
    exact congrArg Location.thread (hm.own u hu sigma ha).1
  obtain ⟨u, hu, rfl | rfl⟩ := hp
  · rw [intNextSymbols_before, Option.mem_toList] at h
    exact hact u (hm.reached hu) h
  · rw [intNextSymbols_after m (hm.reached hu)] at h
    obtain ⟨e, he, hsym⟩ := List.mem_filterMap.1 h
    cases ht : e.tag with
    | none =>
      rw [edgeSymbol_of_none ht] at hsym
      exact hact e.dst (hm.target u (hm.reached hu) e he) hsym
    | some t =>
      rw [edgeSymbol_of_tag ht] at hsym
      obtain ⟨s, n, htag⟩ := hm.tag u (hm.reached hu) e he sigma (ht.trans hsym)
      rw [htag]
      rfl

/-- `place i` is where thread `i` is, or was before it was taken out at its end -/
structure Accounted (a : ConcurrentAutomaton) (s : ConcurrentState) (place : ℕ → ℤ) : Prop where
  length : s.threads.length = a.threads.length
  position : ∀ i < a.threads.length, (a.thread i).Position (place i)
  pos : ∀ i < a.threads.length, s.pos i = place i ∨ s.pos i = noState
  reward : s.reward ≤ ∑ i ∈ Finset.range a.threads.length, ((a.thread i).potential (place i) - 1)

/-- what the positions allow after one thread has moved -/
theorem sum_moved (g : ℕ → ℤ → ℤ) (place : ℕ → ℤ) {n i : ℕ} (hi : i < n) (p : ℤ) :
    ∑ j ∈ Finset.range n, g j (Function.update place i p j) =
      ∑ j ∈ Finset.range n, g j (place j) + (g i p - g i (place i)) := by
  have hmem : i ∈ Finset.range n := Finset.mem_range.2 hi
  have hrest : ∑ j ∈ (Finset.range n).erase i, g j (Function.update place i p j) =
      ∑ j ∈ (Finset.range n).erase i, g j (place j) := by
    apply Finset.sum_congr rfl
    intro j hj
    rw [Function.update_of_ne (Finset.ne_of_mem_erase hj)]
  rw [← Finset.add_sum_erase _ _ hmem, hrest, Function.update_self,
    ← Finset.add_sum_erase _ (fun j => g j (place j)) hmem]
  omega

/-- the thread of a symbol that is offered stands where it is accounted for -/
theorem Accounted.offered (ha : a.Minimised) {s : ConcurrentState} {place : ℕ → ℤ} (h : a.Accounted s place)
    {sigma : Symbol} (hs : sigma ∈ a.intNextSymbols s) :
    sigma.threadId < a.threads.length ∧ s.pos sigma.threadId = place sigma.threadId := by
  have hsingle : ∃ i, sigma ∈ a.nextSingle s i := by
    unfold intNextSymbols at hs
    split at hs
    · obtain ⟨i, -, hi⟩ := List.mem_flatMap.1 hs
      exact ⟨i, hi⟩
    · exact ⟨_, hs⟩
  obtain ⟨i, hi⟩ := hsingle
  have hoffer := ConcurrentAutomaton.offered hi
  have hlt := thread_lt_of_offered hoffer
  have hpos : s.pos i = place i := by
    refine (h.pos i hlt).resolve_right fun hno => ?_
    simp [nextSingle, hno] at hi
  obtain ⟨hm, hid⟩ := ha.framed hlt
  have hthread := (threadId_of_offered hm (hpos ▸ h.position i hlt) hoffer).trans hid
  exact hthread ▸ ⟨hlt, hpos⟩

/-- positions do not give more than the maximal distances -/
theorem Accounted.reward_le (ha : a.Minimised) {s : ConcurrentState} {place : ℕ → ℤ} (h : a.Accounted s place) :
    s.reward ≤ a.maxReward := by
  refine h.reward.trans (Finset.sum_le_sum fun i hi => ?_)
  have hlt := Finset.mem_range.1 hi
  have := (h.position i hlt).potential_le (ha.framed hlt).1
  omega

/-- **A step.** The thread's potential grows by what it earns, so that the sum still fits a `reward_t`. -/
theorem Accounted.step (ha : a.Minimised) (hcost : ∀ i < a.threads.length, (a.thread i).Costless)
    (hl : ∀ i < a.threads.length, (a.thread i).ChargesLoops) (hmax : a.maxReward ≤ highestReward)
    {t : Trans ConcurrentState Symbol} (ht : a.automaton.Step t) (haff : a.Affords t) {place : ℕ → ℤ}
    (h : a.Accounted t.src place) :
    (∃ place', a.Accounted t.dst place') ∧ t.dst.reward = t.src.reward + a.earned t := by
  obtain ⟨hoffer, -, hy | he⟩ := (step_iff a t).1 ht
  · obtain ⟨hreward, hzero⟩ := hy.reward (a := a)
    rw [hreward, hzero, hy.dst]
    exact ⟨⟨place, h.length, h.position, h.pos, h.reward⟩, (add_zero _).symm⟩
  obtain ⟨hi, hpos⟩ := h.offered ha hoffer
  obtain ⟨p, hp, hearned, hreward, hmoved⟩ := he.reward
  set i := t.sym.threadId with hthread
  obtain ⟨c, fuel, hc, -, hmin, -⟩ := ha i hi
  have hm := hc.framed.minimise hmin
  rw [hpos] at hp
  have hle := step_potential hm hmin (hcost i hi) (hl i hi) (h.position i hi) hp
  have hlength := step_length ht
  have hlt : i < t.src.threads.length := h.length ▸ hi
  -- the state with the sum that the reward stands for
  have hnext : a.Accounted { t.dst with reward := t.src.reward + p.reward } (Function.update place i p.state) := by
    refine ⟨hlength.trans h.length, fun j hj => ?_, fun j hj => ?_, ?_⟩
    · by_cases hji : j = i
      · subst hji
        rw [Function.update_self]
        exact (h.position _ hj).step hm hp
      · rw [Function.update_of_ne hji]
        exact h.position j hj
    · by_cases hji : j = i
      · subst hji
        rw [Function.update_self]
        exact hmoved hlt
      · rw [Function.update_of_ne hji]
        exact (step_frame ht hji).symm ▸ h.pos j hj
    · rw [sum_moved (fun j q => (a.thread j).potential q - 1) place hi]
      have := h.reward
      show t.src.reward + p.reward ≤ _
      omega
  have hexact : t.dst.reward = t.src.reward + p.reward := by
    rw [hreward]
    exact toReward_eq (hearned ▸ haff) ((hnext.reward_le ha).trans hmax)
  rw [hearned]
  rw [← hexact] at hnext
  exact ⟨⟨_, hnext⟩, hexact⟩

/-- `do x = 1; while (nondet);` with the choice in state 2, the write in state 3 and the end in state 4 -/
def storeLoop : AbstractCfg :=
  AbstractCfg.addEdges
    (((⟨0, [State.ofId 0 0, State.ofId 0 1, State.ofId 0 2, State.ofAction { storeX with loc := ⟨0, 3⟩ }, State.ofId 0 4],
      [[], [], [], [], []]⟩ : AbstractCfg).modifyState 2 fun s =>
        { s with final := false, nonDet := true, returnState := 0, lockBefore := none, lockAfter := none }).modifyState 4
      fun s => { s with final := true, nonDet := false, returnState := 0, lockBefore := none, lockAfter := none })
    [(1, 3), (3, 2), (2, 3), (2, 4)]

theorem storeLoop_minimise : (storeLoop.minimise false 30).isSome = true := by decide

/-- the loop after `minimise(false)` -/
def storeRound : AbstractCfg := (storeLoop.minimise false 30).get storeLoop_minimise

/-- the automaton of one thread -/
def alone (m : AbstractCfg) : ConcurrentAutomaton := { threads := [m], concurrent := true, deadlock := false }

def storeAction : Symbol := { storeX with loc := ⟨0, 3⟩ }

/-- the state after the write -/
def stored (x : ℤ) : ConcurrentState :=
  { locksviolated := [], conflicts := [], threads := [-3], reward := x }

theorem storeRound_first : (alone storeRound).automaton.Step ⟨(alone storeRound).startState, storeAction, stored 1⟩ := by
  decide

/-- each further round loses 1 -/
theorem storeRound_step (x : ℤ) :
    (alone storeRound).automaton.Step ⟨stored x, storeAction, stored (toReward (x + -1))⟩ := by
  have hoffer : storeAction ∈ (alone storeRound).intNextSymbols (stored 0) := by decide
  have hback : (⟨-1, -3⟩ : RewardState) ∈ storeRound.intSuccessors (-3) storeAction := by decide
  refine (step_iff _ _).2 ⟨hoffer, Or.inl rfl, Or.inr ⟨rfl, fun h => ?_, ⟨[], []⟩, rfl, _, hback, Or.inl rfl⟩⟩
  exact absurd (show conditionalYield storeAction = true from h) (by decide)

theorem storeRound_earned (x : ℤ) (s : ConcurrentState) :
    (alone storeRound).earned ⟨stored x, storeAction, s⟩ = -1 := by
  have hback : storeRound.intSuccessors (-3) storeAction = [⟨-1, -3⟩] := by decide
  show ((storeRound.intSuccessors (-3) storeAction).map RewardState.reward).sum = -1
  rw [hback]
  rfl

/-- the writes of `n` further rounds, as long as they can be afforded -/
theorem storeRound_rounds (n : ℕ) (hn : n ≤ 32769) : ∃ r, (alone storeRound).automaton.Run r (stored (1 - n)) ∧
    r.length = n + 1 ∧ ∀ t ∈ r, (alone storeRound).Affords t := by
  induction n with
  | zero =>
    have hfirst : (alone storeRound).Affords ⟨(alone storeRound).startState, storeAction, stored 1⟩ :=
      show lowestReward ≤ 0 + 1 by decide
    exact ⟨_, run_iff.2 (.single storeRound_first), rfl, fun t ht => List.mem_singleton.1 ht ▸ hfirst⟩
  | succ n ih =>
    obtain ⟨r, hr, hlen, haff⟩ := ih (by omega)
    have hlow : lowestReward ≤ 1 - n + -1 := by
      unfold lowestReward
      omega
    have hnext : toReward (1 - n + -1) = 1 - (n + 1 : ℕ) := by
      rw [toReward_eq hlow (by unfold highestReward; omega)]
      push_cast
      ring
    have hstep := storeRound_step (1 - n)
    rw [hnext] at hstep
    refine ⟨_, run_iff.2 ((run_iff.1 hr).append (.single hstep)), by simp [hlen], fun t ht => ?_⟩
    rcases List.mem_append.1 ht with ht | ht
    · exact haff t ht
    · rw [List.mem_singleton.1 ht, Affords, storeRound_earned]
      exact hlow

/-- **A reward that wraps.** The next round takes the lowest reward to the highest one. -/
theorem storeRound_wraps : ∃ r s, (alone storeRound).automaton.Run r s ∧ s.reward = highestReward := by
  obtain ⟨r, hr, -, -⟩ := storeRound_rounds 32769 (le_refl _)
  have hwrap : toReward (1 - (32769 : ℕ) + -1) = highestReward := by decide
  exact ⟨_, _, run_iff.2 ((run_iff.1 hr).append (.single (storeRound_step _))), hwrap⟩

end ConcurrentAutomaton

end Liss
