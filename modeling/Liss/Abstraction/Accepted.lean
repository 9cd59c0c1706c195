/-
The words that the restricted automaton accepts.

- `accepts_withMonitor`: a word that one automaton accepts is accepted by another one whose monitor accepts it;
- `accepts_restricted`: the restricted automaton accepts the words of the unrestricted one that violate no clause.
-/
import Liss.Abstraction.Restricted
import Liss.Abstraction.Schedule

namespace Liss

namespace ConcurrentAutomaton

variable {a b : ConcurrentAutomaton}

theorem sameSettings_symm (h : SameSettings b a) : SameSettings a b :=
  ⟨h.1.symm, h.2.1.symm, h.2.2.1.symm, h.2.2.2.symm⟩

/-- without synthesised locks the monitor accepts every word -/
theorem Plain.monitorRun (h : a.Plain) (w : List Symbol) {m : Monitor} (hm : m.conflicts = []) :
    ∃ m', a.monitorRun m w = .ok (some m') := by
  induction w generalizing m with
  | nil => exact ⟨m, rfl⟩
  | cons x w ih =>
    obtain ⟨m1, hstep, hconf⟩ := h.applyBadTraceDnf hm x
    obtain ⟨m', hrun⟩ := ih hconf
    exact ⟨m', by rw [ConcurrentAutomaton.monitorRun, hstep]; exact hrun⟩

/-- the final states are those of the threads -/
theorem intIsFinalState_withMonitor (h : SameSettings b a) (s : ConcurrentState) (m : Monitor) :
    b.intIsFinalState (s.withMonitor m) = a.intIsFinalState s := by
  simp only [intIsFinalState, thread_congr h]
  rfl

theorem startState_withMonitor (h : SameSettings b a) : a.startState.withMonitor b.startMonitor = b.startState := by
  simp [startState, startMonitor, ConcurrentState.withMonitor, h.1]

/-- an accepted word that the monitor accepts -/
theorem accepts_withMonitor (h : SameSettings b a) (hc : a.concurrent = true) {w : List Symbol}
    (ha : a.automaton.Accepts w) {m : Monitor} (hm : b.monitorRun b.startMonitor w = .ok (some m)) :
    b.automaton.Accepts w := by
  obtain ⟨r, s, hr, hf, rfl⟩ := ha
  obtain ⟨r', hp', hsame⟩ := path_withMonitor h hc (run_iff.1 hr) rfl hm
  rw [startState_withMonitor h] at hp'
  exact ⟨r', _, run_iff.2 hp', (intIsFinalState_withMonitor h s m).trans hf, (word_of_sameStep hsame).symm⟩

/-- **The language of the restricted automaton.** -/
theorem accepts_restricted (p : Program) (deadlock : Bool) (calls : List LockSymbols)
    (hwf : WellFormedClauses calls.flatten) (hsize : (restricted p deadlock calls).conflicts.length ≤ maxPayload + 1)
    (w : List Symbol) :
    (restricted p deadlock calls).automaton.Accepts w ↔ (ofProgram p true deadlock).automaton.Accepts w ∧
      ∀ cl ∈ calls.flatten, cl ≠ [] → ¬ViolatesClause cl (events w) := by
  obtain ⟨⟨entries, hi⟩, hpad, hsame⟩ := installed_addForbiddenTraces p true deadlock calls
  have hlen : entries.length ≤ maxPayload + 1 := by
    have : (restricted p deadlock calls).conflicts.length = entries.length := by
      rw [restricted, hi.conflicts, List.length_map]
    omega
  rw [← monitorRun_iff hi hpad hwf (handled_of_length hlen w)]
  constructor
  · intro hacc
    obtain ⟨r, s, hr, hf, hw⟩ := hacc
    refine ⟨?_, runs_monitor (hsame.2.1.trans rfl) ⟨r, s, hr, hw⟩⟩
    obtain ⟨m, hm⟩ := (plain_ofProgram p true deadlock).monitorRun w
      (m := (ofProgram p true deadlock).startMonitor) rfl
    exact accepts_withMonitor (sameSettings_symm hsame) (hsame.2.1.trans rfl) ⟨r, s, hr, hf, hw⟩ hm
  · rintro ⟨hacc, m, hm⟩
    exact accepts_withMonitor hsame rfl hacc hm

end ConcurrentAutomaton

end Liss
