/-
Where the preemption-free automaton switches threads.

The scheduler keeps the running thread in `current`. A step sets it to "no thread" when it yields, when it attempts a
lock or a wait that may block, and when the position it reaches is final. The last test is meant for a thread that has
terminated, but a position between two branches is final as soon as one untagged branch leads to the exit, although
the thread may still take the other one (`switch_at_exit_branch`: the thread `x=1; if (nondet) x=2;` can be
interrupted after `x=1`).

- `run_nonPreemptive`: in a run whose executed steps never reach such a position, the running thread is left at a
  scheduling point or when it has taken its last step.
-/
import Liss.Abstraction.Steps

namespace Liss

namespace ConcurrentAutomaton

/-- the scheduler may leave the thread here: an executed yield, or an attempt, without progress, of a lock or a wait
that was neither synthesised nor comes from an assume -/
def SchedulingPoint (t : Trans ConcurrentState Symbol) : Prop :=
  t.sym.operation = .yield ∨
    (conditionalYield t.sym = true ∧ t.sym.synthesised = false ∧ t.sym.assume = false ∧
      t.dst = { t.src with current := none })

/-- a step that is directly followed by a step of another thread is a scheduling point, or the last step of its
thread -/
def NonPreemptive (r : List (Trans ConcurrentState Symbol)) : Prop :=
  ∀ pre x y post, r = pre ++ x :: y :: post → x.sym.threadId ≠ y.sym.threadId →
    SchedulingPoint x ∨ ∀ z ∈ y :: post, z.sym.threadId ≠ x.sym.threadId

/-- before the step: the symbol is a yield, or a lock or wait that is only attempted, or a final position to which it
leads its thread offers no symbol -/
def CleanExit (a : ConcurrentAutomaton) (t : Trans ConcurrentState Symbol) : Prop :=
  t.sym.operation ≠ .yield → (conditionalYield t.sym = true → mustSucceed t.src t.sym = true) →
  ∀ p ∈ (a.thread t.sym.threadId).intSuccessors (t.src.pos t.sym.threadId) t.sym,
    (a.thread t.sym.threadId).intIsFinalState p.state = true →
      (a.thread t.sym.threadId).intNextSymbols p.state = []

instance (a : ConcurrentAutomaton) (t : Trans ConcurrentState Symbol) : Decidable (a.CleanExit t) :=
  inferInstanceAs (Decidable (_ → _ → ∀ p ∈ _, _ → _))

variable {a : ConcurrentAutomaton} {ids : Identifiers} {t : Trans ConcurrentState Symbol}

theorem schedulingPoint_of_yields (h : Yields t) : SchedulingPoint t := by
  have hm := h.may
  simp only [mustSucceed, assumesAllowSwitch_eq, Bool.not_false, Bool.and_true, Bool.or_eq_false_iff] at hm
  exact Or.inr ⟨h.op, hm.2, hm.1.2, h.dst⟩

/-- a thread at a position that offers nothing takes no further step -/
theorem path_terminated (ha : a.Numbered ids) {i : ℕ} {s s' : ConcurrentState}
    {r : List (Trans ConcurrentState Symbol)} (h : a.automaton.Path s r s')
    (h0 : (a.thread i).intNextSymbols (s.pos i) = []) : ∀ z ∈ r, z.sym.threadId ≠ i := by
  let I : ConcurrentState → Prop := fun s => (a.thread i).intNextSymbols (s.pos i) = []
  have hother : ∀ z, a.automaton.Step z → I z.src → z.sym.threadId ≠ i := by
    intro z hz hi heq
    have hoff := step_offered ha hz
    rw [heq, show (a.thread i).intNextSymbols (z.src.pos i) = [] from hi] at hoff
    simp at hoff
  have hstep : ∀ z, a.automaton.Step z → I z.src → I z.dst := by
    intro z hz hi
    have hf := step_frame hz (Ne.symm (hother z hz hi))
    simpa only [I, hf] using hi
  intro z hz
  exact hother z (h.step z hz) (Automaton.path_inv_src I hstep h h0 z hz)

/-- a step after which the thread may be switched is a scheduling point, or leads to a position that offers nothing -/
theorem step_switch (hnc : a.concurrent = false) (hd : a.deadlock = false)
    (hlen : t.src.threads.length = a.threads.length) (ha : a.Numbered ids) (h : a.automaton.Step t)
    (hexit : a.CleanExit t) (hcur : t.dst.current = none) :
    SchedulingPoint t ∨ (a.thread t.sym.threadId).intNextSymbols (t.dst.pos t.sym.threadId) = [] := by
  have hlt : t.sym.threadId < t.src.threads.length := hlen ▸ thread_lt_of_offered (step_offered ha h)
  obtain ⟨-, -, hy | he⟩ := (step_iff a t).1 h
  · exact Or.inl (schedulingPoint_of_yields hy)
  obtain ⟨m, -, p, hp, hdst | ⟨hdl, -⟩⟩ := he.dst
  swap
  · exact absurd hdl (by simp [hd])
  rw [hdst] at hcur
  simp only [executed, hnc, Bool.false_or, Bool.or_eq_true, beq_iff_eq] at hcur
  by_cases hyield : t.sym.operation = .yield
  · exact Or.inl (Or.inl hyield)
  by_cases hfinal : (a.thread t.sym.threadId).intIsFinalState p.state = true
  · right
    rw [hdst, executed_pos hlt]
    exact hexit hyield he.must p hp hfinal
  · simp [hyield, hfinal] at hcur

/-- **The preemption-free automaton is left at scheduling points only**, in runs that reach no final position from
which the thread can go on. -/
theorem run_nonPreemptive (p : Program) {r : List (Trans ConcurrentState Symbol)} {s : ConcurrentState}
    (h : (ofProgram p false false).automaton.Run r s) (hexit : ∀ t ∈ r, (ofProgram p false false).CleanExit t) :
    NonPreemptive r := by
  have ha := numbered_ofProgram p false false
  have hlen := (run_length h).2
  have hpath := run_iff.1 h
  rintro pre x y post rfl hne
  obtain ⟨m, -, hp⟩ := Automaton.path_append_iff.1 hpath
  obtain ⟨-, hx, hrest⟩ := Automaton.path_cons_iff.1 hp
  obtain ⟨hxy, hy, -⟩ := Automaton.path_cons_iff.1 hrest
  have hmem : x ∈ pre ++ x :: y :: post := by simp
  -- y belongs to another thread, so the step x has left no current thread
  have hcur : x.dst.current = none := by
    have hoff := ((step_iff _ y).1 hy).2.1
    rw [← hxy] at hoff
    rcases hoff with hoff | hoff
    · exact hoff
    · rcases step_current hx with hc | hc
      · exact hc
      · exact absurd (Option.some.inj (hc.symm.trans hoff)) hne
  rcases step_switch rfl rfl (hlen x hmem) ha hx (hexit x hmem) hcur with hsp | hnone
  · exact Or.inl hsp
  · exact Or.inr (path_terminated ha hrest hnone)

/-! ## Two threads -/

/-- `x=1; if (nondet) x=2;` as the visitor builds it -/
def exitBranch : AbstractCfg where
  threadId := 0
  states :=
    [State.ofId 0 0, { State.ofId 0 1 with returnState := 6 }, { State.ofId 0 2 with lockAfter := some 10 },
      { State.ofAction { operation := .write, var := 0, loc := ⟨0, 3⟩ } with
        nonDet := true, lockBefore := some 11, lockAfter := some 12 },
      { State.ofAction { operation := .write, var := 0, loc := ⟨0, 4⟩ } with
        lockBefore := some 13, lockAfter := some 14 },
      { State.ofId 0 5 with lockBefore := some 15 }, { State.ofId 0 6 with final := true }]
  edges := [[], [{ dst := 2 }], [{ dst := 3 }], [{ dst := 4 }, { dst := 5 }], [{ dst := 5 }], [{ dst := 6 }], []]

theorem exitBranch_wellFormed : exitBranch.WellFormed ⟨2, 0, 0⟩ ∧ exitBranch.threadId = 0 := by
  refine ⟨⟨by simp [exitBranch, State.ofId, State.ofAction, Symbol.threadId, Symbol.known], by decide,
    fun id s hs => ?_⟩, rfl⟩
  rcases id with _ | _ | _ | _ | _ | _ | _ | id
  all_goals
    simp [exitBranch] at hs
    try (subst hs; rfl)

/-- two threads `y=1;` -/
def writers : Program :=
  Program.twoThreads ⟨2, 0, 0⟩ (Program.straight 0 [(.write, 1)]) (Program.straight 1 [(.write, 1)]) 20 (by decide)
    Program.straight_write_minimise (Program.straight_wellFormed (by simp [Symbol.known]))
      Program.straight_write_wellFormed

/-- one thread after the other -/
def writersWord : List Symbol :=
  [{ operation := .write, var := 1, loc := ⟨1, 3⟩ }, { operation := .write, var := 1, loc := ⟨0, 3⟩ }]

def writersRun : List (Trans ConcurrentState Symbol) × ConcurrentState :=
  ((ofProgram writers false false).automaton.trace (ofProgram writers false false).startState writersWord).get
    (by decide)

theorem writersRun_run : (ofProgram writers false false).automaton.Run writersRun.1 writersRun.2 :=
  run_of_trace (w := writersWord) (by simp [writersRun])

theorem writers_nonPreemptive : NonPreemptive writersRun.1 :=
  run_nonPreemptive writers writersRun_run (by decide)

/-! ## A thread that is left between two branches -/

def exitProgram : Program :=
  Program.twoThreads ⟨2, 0, 0⟩ exitBranch (Program.straight 1 [(.write, 1)]) 20 (by decide)
    Program.straight_write_minimise exitBranch_wellFormed Program.straight_write_wellFormed

/-- `x=1`, then `y=1` of the other thread, then `x=2` -/
def switchedWord : List Symbol :=
  [{ operation := .write, var := 0, loc := ⟨0, 3⟩ }, { operation := .write, var := 1, loc := ⟨1, 3⟩ },
    { operation := .write, var := 0, loc := ⟨0, 4⟩ }]

/-- the thread `x=1; if (nondet) x=2;` is interrupted after `x=1` and goes on afterwards -/
theorem switch_at_exit_branch :
    ¬ ∀ (p : Program) (r : List (Trans ConcurrentState Symbol)) (s : ConcurrentState),
      (ofProgram p false false).automaton.Run r s → NonPreemptive r := by
  intro hall
  let a := ofProgram exitProgram false false
  obtain ⟨⟨r, s⟩, htr⟩ : ∃ x, a.automaton.trace a.startState switchedWord = some x := by
    rw [← Option.isSome_iff_exists]
    decide
  obtain ⟨hpath, hword⟩ := Automaton.path_of_trace htr
  have hrun : a.automaton.Run r s := run_iff.2 hpath
  clear htr hpath
  obtain ⟨x, r, rfl, hx, hword⟩ := List.map_eq_cons_iff.1 hword
  obtain ⟨y, r, rfl, hy, hword⟩ := List.map_eq_cons_iff.1 hword
  obtain ⟨z, r, rfl, hz, -⟩ := List.map_eq_cons_iff.1 hword
  have hx0 : x.sym.threadId = 0 := by rw [hx]; rfl
  have hy1 : y.sym.threadId = 1 := by rw [hy]; rfl
  have hz0 : z.sym.threadId = 0 := by rw [hz]; rfl
  rcases hall exitProgram _ s hrun [] x y (z :: r) rfl (by omega) with (hop | ⟨hop, -⟩) | hlast
  · simp [hx] at hop
  · simp [conditionalYield, hx] at hop
  · exact hlast z (by simp) (by omega)

end ConcurrentAutomaton

end Liss
