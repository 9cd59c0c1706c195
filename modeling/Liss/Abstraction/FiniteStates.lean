/-
The product automaton has finitely many states up to their reward, so the searches that stop at states they have seen
end. Without synthesised locks the monitor does not change, a thread is at one of finitely many positions, and only the
numbers of locks and conditionals that the identifier store has handed out enter the two bitsets.

- `bounded_step`: a step keeps the bounds;
- `finiteKeys`: there are finitely many reachable states, as `operator==` compares them.
-/
import Mathlib.Data.Set.Finite.List
import Liss.Abstraction.Monitor
import Liss.Abstraction.Schedule
import Liss.Abstraction.StateEquality
import Liss.Cfg.Positions

namespace Liss

/-! ## Positions -/

namespace AbstractCfg

/-- the positions that a step leads to -/
def positions (c : AbstractCfg) : List ℤ :=
  (List.range c.states.length).map c.afterAction ++ c.edges.flatten.map fun e => (e.dst : ℤ)

variable {c : AbstractCfg}

theorem afterAction_mem_positions {id : ℕ} {sigma : Symbol} (h : sameSymbol (c.getState id).action sigma = true) :
    c.afterAction id ∈ c.positions := by
  obtain ⟨a, ha, -⟩ := sameSymbol_iff.1 h
  have hid : id < c.states.length := by
    by_contra hge
    rw [getState, List.getD_eq_default _ _ (by omega)] at ha
    cases ha
  exact List.mem_append_left _ (List.mem_map_of_mem (List.mem_range.2 hid))

theorem mem_positions {state : ℤ} {sigma : Symbol} {p : RewardState} (h : p ∈ c.intSuccessors state sigma) :
    p.state ∈ c.positions := by
  have hedges : ∀ es : List Edge, (∀ e ∈ es, e ∈ c.edges.flatten) → p ∈ c.edgeSuccessors sigma es →
      p.state ∈ c.positions := by
    intro es
    induction es with
    | nil => exact fun _ h => absurd h List.not_mem_nil
    | cons e es ih =>
      intro hes hp
      by_cases h1 : sameSymbol e.tag sigma = true
      · rw [edgeSuccessors, if_pos h1] at hp
        rw [List.mem_singleton.1 hp]
        exact List.mem_append_right _ (List.mem_map_of_mem (hes e List.mem_cons_self))
      · by_cases h2 : sameSymbol (c.getState e.dst).action sigma = true
        · rw [edgeSuccessors, if_neg h1, if_pos h2] at hp
          rw [List.mem_singleton.1 hp]
          exact afterAction_mem_positions h2
        · rw [edgeSuccessors, if_neg h1, if_neg h2] at hp
          exact ih (fun f hf => hes f (List.mem_cons_of_mem e hf)) hp
  unfold intSuccessors at h
  split_ifs at h with h1 h2
  · apply hedges _ (fun e he => ?_) h
    obtain ⟨es, hes, hees⟩ := mem_edges_of_getSuccessors he
    exact List.mem_flatten_of_mem hes hees
  · rw [List.mem_singleton.1 h]
    exact afterAction_mem_positions h2
  · exact absurd h List.not_mem_nil

end AbstractCfg

namespace ConcurrentAutomaton

open ConcurrentState

variable {a : ConcurrentAutomaton} {ids : Identifiers}

/-- the positions of all threads -/
def positions (a : ConcurrentAutomaton) : List ℤ := -1 :: (noState : ℤ) :: a.threads.flatMap AbstractCfg.positions

theorem mem_positions_of_thread {i : ℕ} (hi : i < a.threads.length) {p : ℤ} (h : p ∈ (a.thread i).positions) :
    p ∈ a.positions := by
  refine List.mem_cons_of_mem _ (List.mem_cons_of_mem _ (List.mem_flatMap.2 ⟨_, ?_, h⟩))
  rw [thread, List.getD_eq_getElem _ _ hi]
  exact List.getElem_mem hi

/-! ## Steps -/

/-- the bounds of a reachable state -/
structure Bounded (a : ConcurrentAutomaton) (ids : Identifiers) (s : ConcurrentState) : Prop where
  monitor : s.toMonitor = a.startMonitor
  length : s.threads.length = a.threads.length
  positions : ∀ p ∈ s.threads, p ∈ a.positions
  current : ∀ i, s.current = some i → i < a.threads.length
  conditionals : s.conditionals ⊆ Finset.range ids.noConditionals
  locks : s.locks ⊆ Finset.range ids.noLocks

theorem bounded_startState : a.Bounded ids a.startState := by
  refine ⟨rfl, List.length_replicate, fun p hp => ?_, (fun _ hi => nomatch hi), Finset.empty_subset _,
    Finset.empty_subset _⟩
  rw [List.eq_of_mem_replicate hp]
  exact List.mem_cons_self

/-- without synthesised locks the monitor lets everything pass and stays as it is -/
theorem Plain.applyBadTraceDnf_start (h : a.Plain) (sigma : Symbol) :
    a.applyBadTraceDnf a.startMonitor sigma = .ok (some a.startMonitor) := by
  unfold ConcurrentAutomaton.applyBadTraceDnf
  split_ifs
  · rfl
  · rw [h.conflictMap]
    rfl

theorem conditionals_subset {sigma : Symbol} {conditionals : Finset ℕ} (hknown : sigma.known ids = true)
    (h : conditionals ⊆ Finset.range ids.noConditionals) :
    condEffect sigma conditionals ⊆ Finset.range ids.noConditionals := by
  unfold condEffect
  split
  · rename_i hop
    rw [Symbol.known, hop] at hknown
    exact Finset.insert_subset (Finset.mem_range.2 (of_decide_eq_true hknown)) h
  · exact (Finset.erase_subset _ _).trans h
  · exact (Finset.erase_subset _ _).trans h
  · exact h

theorem locks_subset {sigma : Symbol} {locks : Finset ℕ} (hknown : sigma.known ids = true)
    (h : locks ⊆ Finset.range ids.noLocks) : lockEffect sigma locks ⊆ Finset.range ids.noLocks := by
  unfold lockEffect
  split
  · rename_i hop
    rw [Symbol.known, hop] at hknown
    exact Finset.insert_subset (Finset.mem_range.2 (of_decide_eq_true hknown)) h
  · exact (Finset.erase_subset _ _).trans h
  · exact h

theorem Bounded.setPos {s : ConcurrentState} (h : a.Bounded ids s) (thread : ℕ) {p : ℤ} (hp : p ∈ a.positions) :
    a.Bounded ids (s.setPos thread p) := by
  refine ⟨h.monitor, (length_setPos s thread p).trans h.length, fun q hq => ?_, h.current, h.conditionals, h.locks⟩
  rcases List.mem_or_eq_of_mem_set hq with hq | rfl
  · exact h.positions q hq
  · exact hp

/-- **One step.** -/
theorem bounded_step (h : a.Plain) (ha : a.Numbered ids) {t : Trans ConcurrentState Symbol} (ht : a.automaton.Step t)
    (hs : a.Bounded ids t.src) : a.Bounded ids t.dst := by
  have hoffered := step_offered ha ht
  have hthread : t.sym.threadId < a.threads.length := thread_lt_of_offered hoffered
  have hknown := ((ha t.sym.threadId).1.nextSymbols hoffered).2
  obtain ⟨-, -, hy | he⟩ := (step_iff a t).1 ht
  · rw [hy.dst]
    exact ⟨hs.monitor, hs.length, hs.positions, (fun _ hi => nomatch hi), hs.conditionals, hs.locks⟩
  · obtain ⟨m, hm, p, hp, hdst⟩ := he.dst
    rw [hs.monitor, h.applyBadTraceDnf_start] at hm
    obtain rfl := Option.some.inj (Except.ok.inj hm)
    have hpos := mem_positions_of_thread hthread (AbstractCfg.mem_positions hp)
    have hexec : a.Bounded ids (a.executed t.src t.sym a.startMonitor p) := by
      refine ⟨rfl, ?_, fun q hq => ?_, fun i hi => ?_, conditionals_subset hknown hs.conditionals,
        locks_subset hknown hs.locks⟩
      · exact List.length_set.trans hs.length
      · rcases List.mem_or_eq_of_mem_set hq with hq | rfl
        · exact hs.positions q hq
        · exact hpos
      · simp only [executed] at hi
        split_ifs at hi
        rw [← Option.some.inj hi]
        exact hthread
    rcases hdst with hdst | ⟨-, -, hdst⟩
    · rw [hdst]
      exact hexec
    · rw [hdst]
      exact hexec.setPos _ (List.mem_cons_of_mem _ List.mem_cons_self)

/-- what holds of the start state and is kept by every step holds of all reachable states -/
theorem reachable_inv {I : ConcurrentState → Prop} (h0 : I a.startState)
    (hstep : ∀ t, a.automaton.Step t → I t.src → I t.dst) {s : ConcurrentState} (hs : a.automaton.Reachable s) :
    I s := by
  obtain ⟨r, hr⟩ := hs
  exact Automaton.path_inv I hstep (run_iff.1 hr) h0

theorem bounded_of_reachable (h : a.Plain) (ha : a.Numbered ids) {s : ConcurrentState}
    (hs : a.automaton.Reachable s) : a.Bounded ids s :=
  reachable_inv bounded_startState (fun _ ht hi => bounded_step h ha ht hi) hs

/-! ## Finitely many states -/

/-- finitely many lists of one length have their elements in a finite set -/
theorem finite_lists {α : Type*} (l : List α) (n : ℕ) : {x : List α | x.length = n ∧ ∀ p ∈ x, p ∈ l}.Finite := by
  have hfin : Finite {p // p ∈ l} := l.finite_toSet
  refine ((List.finite_length_eq {p // p ∈ l} n).image (List.map Subtype.val)).subset ?_
  intro x hx
  refine ⟨x.attachWith (fun p => p ∈ l) hx.2, ?_, List.attachWith_map_subtype_val hx.2⟩
  exact (List.length_attachWith).trans hx.1

/-- the state with the start monitor and without reward that has these parts -/
def ofParts (a : ConcurrentAutomaton) (q : (List ℤ × Option ℕ) × Finset ℕ × Finset ℕ) : ConcurrentState where
  toMonitor := a.startMonitor
  threads := q.1.1
  current := q.1.2
  conditionals := q.2.1
  locks := q.2.2

theorem Bounded.eraseReward_eq {s : ConcurrentState} (h : a.Bounded ids s) :
    a.ofParts ⟨⟨s.threads, s.current⟩, s.conditionals, s.locks⟩ = s.eraseReward := by
  rw [ofParts, ← h.monitor]
  rfl

/-- **Finitely many states.** -/
theorem finiteKeys (h : a.Plain) (ha : a.Numbered ids) : a.automaton.FiniteKeys eraseReward := by
  have hcurrent : {c : Option ℕ | ∀ i, c = some i → i < a.threads.length}.Finite := by
    refine ((List.range a.threads.length).map some ++ [none]).finite_toSet.subset fun c hc => ?_
    cases c with
    | none => exact List.mem_append_right _ List.mem_cons_self
    | some i => exact List.mem_append_left _ (List.mem_map_of_mem (List.mem_range.2 (hc i rfl)))
  have hparts := ((finite_lists a.positions a.threads.length).prod hcurrent).prod
    ((Finset.range ids.noConditionals).powerset.finite_toSet.prod (Finset.range ids.noLocks).powerset.finite_toSet)
  apply (hparts.image a.ofParts).subset
  intro k hk
  obtain ⟨s, hs, rfl⟩ := hk
  have hb := bounded_of_reachable h ha hs
  refine ⟨⟨⟨s.threads, s.current⟩, s.conditionals, s.locks⟩, ⟨⟨⟨hb.length, hb.positions⟩, hb.current⟩, ?_, ?_⟩,
    hb.eraseReward_eq⟩
  · exact Finset.mem_coe.2 (Finset.mem_powerset.2 hb.conditionals)
  · exact Finset.mem_coe.2 (Finset.mem_powerset.2 hb.locks)

end ConcurrentAutomaton

end Liss
