/-
What one step of the concurrent automaton can do. `step_iff` says it once: a step either yields (the thread attempts a
lock or a wait at which it may be switched, and only `current` changes), or executes its symbol, in which case the
symbol is not blocked, the monitor lets it pass, and the state changes as `executed` says.
-/
import Liss.Abstraction.ConcurrentAutomaton

namespace Liss.ConcurrentAutomaton

/-- the lock bits after an operation that was not blocked -/
def lockEffect (sigma : Symbol) (locks : Finset ℕ) : Finset ℕ :=
  match sigma.operation with
  | .lock => insert sigma.var locks
  | .unlock => locks.erase sigma.var
  | _ => locks

/-- the conditional bits after an operation that was not blocked -/
def condEffect (sigma : Symbol) (conditionals : Finset ℕ) : Finset ℕ :=
  match sigma.operation with
  | .notify => insert sigma.var conditionals
  | .reset | .waitReset => conditionals.erase sigma.var
  | _ => conditionals

/-- the state after `sigma` has been executed, the monitor has become `m` and the thread has moved to `p` -/
def executed (a : ConcurrentAutomaton) (s : ConcurrentState) (sigma : Symbol) (m : Monitor) (p : RewardState) :
    ConcurrentState :=
  { toMonitor := m
    threads := s.threads.set sigma.threadId p.state
    current :=
      if a.concurrent || (a.thread sigma.threadId).intIsFinalState p.state || sigma.operation == .yield then none
      else some sigma.threadId
    reward := toReward (s.reward + p.reward)
    conditionals := condEffect sigma s.conditionals
    locks := lockEffect sigma s.locks }

theorem conditionalYield_of_blocked {s : ConcurrentState} {sigma : Symbol} (h : blocked s sigma = true) :
    conditionalYield sigma = true := by
  unfold blocked at h
  unfold conditionalYield
  split at h <;> simp_all

theorem applyOperation_eq {s : ConcurrentState} {sigma : Symbol} (h : blocked s sigma = false) :
    applyOperation s sigma =
      ({ s with
          current := if sigma.operation = .yield then none else some sigma.threadId
          conditionals := condEffect sigma s.conditionals
          locks := lockEffect sigma s.locks }, true) := by
  unfold blocked at h
  unfold applyOperation condEffect lockEffect
  cases hop : sigma.operation <;> simp_all

/-- the non-progress step: a lock or wait that is attempted while the thread may be switched -/
structure Yields (t : Trans ConcurrentState Symbol) : Prop where
  op : conditionalYield t.sym = true
  may : mustSucceed t.src t.sym = false
  dst : t.dst = { t.src with current := none }

/-- the progress step -/
structure Executes (a : ConcurrentAutomaton) (t : Trans ConcurrentState Symbol) : Prop where
  free : blocked t.src t.sym = false
  must : conditionalYield t.sym = true → mustSucceed t.src t.sym = true
  dst : ∃ m, a.applyBadTraceDnf t.src.toMonitor t.sym = .ok (some m) ∧
    ∃ p ∈ (a.thread t.sym.threadId).intSuccessors (t.src.pos t.sym.threadId) t.sym,
      t.dst = a.executed t.src t.sym m p ∨
      (a.deadlock = true ∧
        (a.thread t.sym.threadId).intIsFinalState ((a.executed t.src t.sym m p).pos t.sym.threadId) = true ∧
        t.dst = (a.executed t.src t.sym m p).setPos t.sym.threadId noState)

/-- the state before the monitor is asked -/
def applied (s : ConcurrentState) (sigma : Symbol) : ConcurrentState :=
  { s with
    current := if sigma.operation = .yield then none else some sigma.threadId
    conditionals := condEffect sigma s.conditionals
    locks := lockEffect sigma s.locks }

theorem moveThread_eq (a : ConcurrentAutomaton) (s : ConcurrentState) (sigma : Symbol) (m : Monitor) (p : RewardState) :
    a.moveThread { applied s sigma with toMonitor := m } sigma.threadId p = a.executed s sigma m p := by
  simp only [moveThread, executed, applied, ConcurrentState.setPos]
  congr 1
  by_cases hy : sigma.operation = .yield <;>
    cases a.concurrent <;> cases (a.thread sigma.threadId).intIsFinalState p.state <;> simp [hy]

theorem mem_deadlockStates {a : ConcurrentAutomaton} {s s' : ConcurrentState} {thread : ℕ} :
    s' ∈ a.deadlockStates s thread ↔
      a.deadlock = true ∧ (a.thread thread).intIsFinalState (s.pos thread) = true ∧ s' = s.setPos thread noState := by
  unfold deadlockStates
  split_ifs with h
  · simp only [Bool.and_eq_true] at h
    simp [h.1, h.2]
  · simp only [Bool.and_eq_true, not_and] at h
    constructor
    · simp
    · rintro ⟨h1, h2, -⟩
      exact absurd h2 (h h1)

/-! ## `apply_symbol` by cases -/

theorem applySymbol_blocked (a : ConcurrentAutomaton) {s : ConcurrentState} {sigma : Symbol}
    (hm : mustSucceed s sigma = true) (hb : blocked s sigma = true) : a.applySymbol s sigma = .ok none := by
  simp [applySymbol, hm, hb]

theorem applySymbol_yields (a : ConcurrentAutomaton) {s : ConcurrentState} {sigma : Symbol}
    (hm : mustSucceed s sigma = false) (hc : conditionalYield sigma = true) :
    a.applySymbol s sigma = .ok (some ({ s with current := none }, false)) := by
  simp [applySymbol, hm, hc]

theorem applySymbol_executes (a : ConcurrentAutomaton) {s : ConcurrentState} {sigma : Symbol}
    (hb : blocked s sigma = false) (hm : conditionalYield sigma = true → mustSucceed s sigma = true) :
    a.applySymbol s sigma = (a.applyBadTraceDnf s.toMonitor sigma).map
      (Option.map fun m => ({ applied s sigma with toMonitor := m }, true)) := by
  have hn : (conditionalYield sigma && !mustSucceed s sigma) = false := by
    cases h : conditionalYield sigma
    · simp
    · simp [hm h]
  simp only [applySymbol, hb, Bool.and_false, Bool.false_eq_true, if_false, condyieldIsAlwaysYield_eq,
    Bool.true_and, hn, applyOperation_eq hb]
  rcases a.applyBadTraceDnf s.toMonitor sigma with e | (_ | m) <;> rfl

theorem succ_eq (a : ConcurrentAutomaton) {s : ConcurrentState} {sigma : Symbol}
    (hc : s.current = none ∨ s.current = some sigma.threadId) :
    a.automaton.succ s sigma =
      match a.applySymbol s sigma with
      | .error _ => []
      | .ok none => []
      | .ok (some (next, progress)) =>
        if !progress then [next]
        else ((a.thread sigma.threadId).intSuccessors (s.pos sigma.threadId) sigma).flatMap fun p =>
          a.moveThread next sigma.threadId p ::
            a.deadlockStates (a.moveThread next sigma.threadId p) sigma.threadId := by
  have hn : ¬(s.current ≠ none ∧ s.current ≠ some sigma.threadId) := by tauto
  simp only [automaton, intSuccessors, if_neg hn]
  rcases a.applySymbol s sigma with e | (_ | ⟨next, progress⟩)
  · rfl
  · rfl
  · cases progress <;> rfl

theorem succ_nil (a : ConcurrentAutomaton) {s : ConcurrentState} {sigma : Symbol}
    (hc : ¬(s.current = none ∨ s.current = some sigma.threadId)) : a.automaton.succ s sigma = [] := by
  have hn : s.current ≠ none ∧ s.current ≠ some sigma.threadId := by tauto
  simp only [automaton, intSuccessors, if_pos hn]

/-- **What a step can do.** -/
theorem step_iff (a : ConcurrentAutomaton) (t : Trans ConcurrentState Symbol) :
    a.automaton.Step t ↔
      t.sym ∈ a.intNextSymbols t.src ∧ (t.src.current = none ∨ t.src.current = some t.sym.threadId) ∧
        (Yields t ∨ a.Executes t) := by
  unfold Automaton.Step
  apply and_congr_right
  intro _
  by_cases hc : t.src.current = none ∨ t.src.current = some t.sym.threadId
  swap
  · rw [succ_nil a hc]
    simp [hc]
  rw [succ_eq a hc]
  simp only [hc, true_and]
  by_cases hy : conditionalYield t.sym = true ∧ mustSucceed t.src t.sym = false
  · rw [applySymbol_yields a hy.2 hy.1]
    simp only [Bool.not_false, if_true, List.mem_singleton]
    constructor
    · exact fun h => Or.inl ⟨hy.1, hy.2, h⟩
    · rintro (h | h)
      · exact h.dst
      · exact absurd (h.must hy.1) (by simp [hy.2])
  have hmust : conditionalYield t.sym = true → mustSucceed t.src t.sym = true := by
    intro h
    simpa [h] using hy
  rw [or_iff_right fun h : Yields t => hy ⟨h.op, h.may⟩]
  cases hb : blocked t.src t.sym with
  | true =>
    rw [applySymbol_blocked a (hmust (conditionalYield_of_blocked hb)) hb]
    simp only [List.not_mem_nil, false_iff]
    exact fun h => absurd h.free (by simp [hb])
  | false =>
    rw [applySymbol_executes a hb hmust]
    constructor
    · intro h
      rcases hmon : a.applyBadTraceDnf t.src.toMonitor t.sym with e | (_ | m)
      · simp [hmon, Except.map] at h
      · simp [hmon, Except.map] at h
      · simp only [hmon, Except.map, Option.map_some, Bool.not_true, Bool.false_eq_true, if_false] at h
        obtain ⟨p, hp, hd⟩ := List.mem_flatMap.1 h
        refine ⟨hb, hmust, m, hmon, p, hp, ?_⟩
        rw [moveThread_eq] at hd
        rcases List.mem_cons.1 hd with hd | hd
        · exact Or.inl hd
        · exact Or.inr (mem_deadlockStates.1 hd)
    · rintro ⟨-, -, m, hmon, p, hp, hd⟩
      simp only [hmon, Except.map, Option.map_some, Bool.not_true, Bool.false_eq_true, if_false]
      refine List.mem_flatMap.2 ⟨p, hp, ?_⟩
      rw [moveThread_eq]
      rcases hd with hd | hd
      · exact hd ▸ List.mem_cons_self
      · exact List.mem_cons_of_mem _ (mem_deadlockStates.2 hd)

/-- without conflicts nothing is thrown -/
theorem not_throws {a : ConcurrentAutomaton} (h : a.conflictMap = []) (s : ConcurrentState) (x : Symbol) :
    ¬a.throws s x = true := by
  have hmonitor : ∀ (m : Monitor) (e : Exn), a.applyBadTraceDnf m x ≠ .error e := by
    intro m e
    unfold applyBadTraceDnf
    rw [h]
    split_ifs
    · simp
    · dsimp only [List.filter_nil, List.map_nil, List.foldlM_nil]
      split <;> simp
  have happly : ∀ e : Exn, a.applySymbol s x ≠ .error e := by
    intro e he
    unfold applySymbol at he
    split_ifs at he
    dsimp only at he
    split at he
    · rename_i e' hm
      exact hmonitor _ _ hm
    · simp at he
    · simp at he
  unfold throws intSuccessors
  dsimp only
  split_ifs
  · simp
  · cases hs : a.applySymbol s x with
    | error e => exact absurd hs (happly e)
    | ok r =>
      rcases r with _ | ⟨next, progress⟩
      · simp
      · cases progress <;> simp

/-! ## Offered symbols -/

/-- every thread is well-formed and carries its number, as in an automaton built from a program -/
def Numbered (a : ConcurrentAutomaton) (ids : Identifiers) : Prop :=
  ∀ i, (a.thread i).WellFormed ids ∧ (a.thread i).threadId = i

theorem numbered_ofProgram (p : Program) (concurrent deadlock : Bool) :
    (ofProgram p concurrent deadlock).Numbered p.identifiers := by
  intro i
  unfold thread ofProgram
  rw [List.getD_eq_getElem?_getD]
  cases h : p.minimisedThreads[i]? with
  | some m => exact p.minimised_wellFormed h
  | none =>
    refine ⟨⟨fun s hs a ha => ?_, fun es hes e he => ?_, fun id s hs => ?_⟩, rfl⟩
    · rw [List.mem_singleton.1 hs] at ha
      simp [State.ofId] at ha
    · rw [List.mem_singleton.1 hes] at he
      simp at he
    · obtain ⟨rfl, rfl⟩ : id = 0 ∧ State.ofId i 0 = s := by simpa [AbstractCfg.empty, List.getElem?_singleton] using hs
      rfl

theorem nextSingle_threadId {a : ConcurrentAutomaton} {ids : Identifiers} (ha : a.Numbered ids) {s : ConcurrentState}
    {i : ℕ} {sigma : Symbol} (h : sigma ∈ a.nextSingle s i) : sigma.threadId = i := by
  unfold nextSingle at h
  split_ifs at h
  · exact ((ha i).1.nextSymbols (List.mem_of_mem_filter h)).1.trans (ha i).2
  · simp at h

/-- a symbol is offered iff its thread may run and offers it -/
theorem mem_intNextSymbols {a : ConcurrentAutomaton} {ids : Identifiers} (ha : a.Numbered ids) {s : ConcurrentState}
    {sigma : Symbol} :
    sigma ∈ a.intNextSymbols s ↔
      (s.current = none ∧ sigma.threadId < s.threads.length ∨ s.current = some sigma.threadId) ∧
        sigma ∈ a.nextSingle s sigma.threadId := by
  unfold intNextSymbols
  cases hc : s.current with
  | none =>
    simp only [List.mem_flatMap, List.mem_range, true_and, reduceCtorEq, or_false]
    constructor
    · rintro ⟨i, hi, h⟩
      have := nextSingle_threadId ha h
      subst this
      exact ⟨hi, h⟩
    · rintro ⟨hi, h⟩
      exact ⟨_, hi, h⟩
  | some i =>
    simp only [reduceCtorEq, false_and, false_or, Option.some.injEq]
    constructor
    · intro h
      have := nextSingle_threadId ha h
      subst this
      exact ⟨rfl, h⟩
    · rintro ⟨rfl, h⟩
      exact h

/-! ## Threads -/

/-- the initial state -/
def startState (a : ConcurrentAutomaton) : ConcurrentState :=
  { locksviolated := List.replicate a.locksSize false
    conflicts := []
    threads := List.replicate a.threads.length (-1) }

theorem intInitialStates_eq (a : ConcurrentAutomaton) : a.intInitialStates = [a.startState] := by
  let start (l : List ℤ) : ConcurrentState :=
    { locksviolated := List.replicate a.locksSize false, conflicts := [], threads := l }
  -- after k rounds of the loop the first k threads are at their start position
  have hloop : ∀ k ≤ a.threads.length,
      (List.range k).foldl (fun states i =>
        (a.thread i).intInitialStates.flatMap fun init => states.map fun s => s.setPos i init.state)
        [start (List.replicate a.threads.length 0)] =
      [start (List.replicate k (-1) ++ List.replicate (a.threads.length - k) 0)] := by
    intro k
    induction k with
    | zero => simp
    | succ k ih =>
      intro hk
      have hset : (List.replicate k (-1 : ℤ) ++ List.replicate (a.threads.length - k) 0).set k (-1) =
          List.replicate (k + 1) (-1) ++ List.replicate (a.threads.length - (k + 1)) 0 := by
        obtain ⟨m, hm⟩ : ∃ m, a.threads.length - k = m + 1 := ⟨a.threads.length - k - 1, by omega⟩
        have hm' : a.threads.length - (k + 1) = m := by omega
        rw [hm, hm', List.set_append_right _ _ (by simp), List.replicate_succ, List.replicate_succ']
        simp
      rw [List.range_succ, List.foldl_append, ih (by omega)]
      simp only [List.foldl_cons, List.foldl_nil, AbstractCfg.intInitialStates, List.flatMap_cons, List.map_cons,
        List.map_nil, List.flatMap_nil, List.append_nil, ConcurrentState.setPos, start, hset]
  have := hloop a.threads.length (Nat.le_refl _)
  simpa [intInitialStates, startState, start] using this

theorem pos_startState {a : ConcurrentAutomaton} {i : ℕ} (h : i < a.threads.length) : a.startState.pos i = -1 := by
  simp [startState, ConcurrentState.pos, List.getD_eq_getElem?_getD, h]

/-- the runs are the paths from the start state -/
theorem run_iff {a : ConcurrentAutomaton} {r : List (Trans ConcurrentState Symbol)} {s : ConcurrentState} :
    a.automaton.Run r s ↔ a.automaton.Path a.startState r s := by
  have hinit : a.automaton.initial = [a.startState] := intInitialStates_eq a
  simp [Automaton.Run, hinit]

/-- what can be read from the start state is a run -/
theorem run_of_trace {a : ConcurrentAutomaton} {w : List Symbol} {r : List (Trans ConcurrentState Symbol)}
    {s : ConcurrentState} (h : a.automaton.trace a.startState w = some (r, s)) : a.automaton.Run r s :=
  run_iff.2 (Automaton.path_of_trace h).1

theorem offered {a : ConcurrentAutomaton} {s : ConcurrentState} {i : ℕ} {sigma : Symbol}
    (h : sigma ∈ a.nextSingle s i) : sigma ∈ (a.thread i).intNextSymbols (s.pos i) := by
  unfold nextSingle at h
  split_ifs at h
  · exact List.mem_of_mem_filter h
  · simp at h

/-- only existing threads offer symbols -/
theorem thread_lt_of_offered {a : ConcurrentAutomaton} {i : ℕ} {p : ℤ} {sigma : Symbol}
    (h : sigma ∈ (a.thread i).intNextSymbols p) : i < a.threads.length := by
  by_contra hi
  have hempty : a.thread i = AbstractCfg.empty i := by
    rw [thread, List.getD_eq_default _ _ (by omega)]
  have hact : ∀ k, ((AbstractCfg.empty i).getState k).action = none := by
    intro k
    cases k with
    | zero => rfl
    | succ k => rw [AbstractCfg.getState, List.getD_eq_default _ _ (by simp [AbstractCfg.empty])]; rfl
  have hsucc : ∀ k, (AbstractCfg.empty i).getSuccessors k = [] := by
    intro k
    cases k with
    | zero => rfl
    | succ k => rw [AbstractCfg.getSuccessors, List.getD_eq_default _ _ (by simp [AbstractCfg.empty])]
  rw [hempty, AbstractCfg.intNextSymbols] at h
  split_ifs at h
  · simp [hsucc] at h
  · simp [hact] at h

variable {a : ConcurrentAutomaton} {ids : Identifiers} {t : Trans ConcurrentState Symbol}

theorem step_offered (ha : a.Numbered ids) (h : a.automaton.Step t) :
    t.sym ∈ (a.thread t.sym.threadId).intNextSymbols (t.src.pos t.sym.threadId) :=
  offered ((mem_intNextSymbols ha).1 ((step_iff a t).1 h).1).2

theorem step_length (h : a.automaton.Step t) : t.dst.threads.length = t.src.threads.length := by
  obtain ⟨-, -, hy | he⟩ := (step_iff a t).1 h
  · rw [hy.dst]
  · obtain ⟨m, -, p, -, hd | ⟨-, -, hd⟩⟩ := he.dst
    · rw [hd]; simp [executed]
    · rw [hd]; simp [executed]

/-- a step moves its own thread only -/
theorem step_frame (h : a.automaton.Step t) {i : ℕ} (hi : i ≠ t.sym.threadId) : t.dst.pos i = t.src.pos i := by
  have hmove : ∀ m p, (a.executed t.src t.sym m p).pos i = t.src.pos i := by
    intro m p
    simp [executed, ConcurrentState.pos, List.getD_eq_getElem?_getD, List.getElem?_set_ne (Ne.symm hi)]
  obtain ⟨-, -, hy | he⟩ := (step_iff a t).1 h
  · rw [hy.dst]; rfl
  · obtain ⟨m, -, p, -, hd | ⟨-, -, hd⟩⟩ := he.dst
    · rw [hd, hmove]
    · rw [hd, ConcurrentState.pos_setPos, if_neg (fun hc => hi hc.1.symm), hmove]

/-- the running thread after a step -/
theorem step_current (h : a.automaton.Step t) : t.dst.current = none ∨ t.dst.current = some t.sym.threadId := by
  have hexec : ∀ m p, (a.executed t.src t.sym m p).current = none ∨
      (a.executed t.src t.sym m p).current = some t.sym.threadId := by
    intro m p
    simp only [executed]
    split_ifs
    · exact Or.inl rfl
    · exact Or.inr rfl
  obtain ⟨-, -, hy | he⟩ := (step_iff a t).1 h
  · rw [hy.dst]
    exact Or.inl rfl
  · obtain ⟨m, -, p, -, hd | ⟨-, -, hd⟩⟩ := he.dst
    · rw [hd]
      exact hexec m p
    · rw [hd]
      exact hexec m p

/-- in the preemptive automaton every step executes, and leaves no running thread -/
theorem step_preemptive (hc : a.concurrent = true) (h : a.automaton.Step t) (hcur : t.src.current = none) :
    a.Executes t ∧ t.dst.current = none := by
  obtain ⟨-, -, hy | he⟩ := (step_iff a t).1 h
  · exact absurd hy.may (by simp [mustSucceed, hcur])
  · refine ⟨he, ?_⟩
    obtain ⟨m, -, p, -, hd | ⟨-, -, hd⟩⟩ := he.dst
    · rw [hd]; simp [executed, hc]
    · rw [hd]; simp [executed, hc, ConcurrentState.setPos]

theorem run_length {r : List (Trans ConcurrentState Symbol)} {s : ConcurrentState} (h : a.automaton.Run r s) :
    s.threads.length = a.threads.length ∧ ∀ t ∈ r, t.src.threads.length = a.threads.length := by
  have hp := run_iff.1 h
  have hstart : a.startState.threads.length = a.threads.length := by simp [startState]
  have hstep : ∀ t, a.automaton.Step t → t.src.threads.length = a.threads.length →
      t.dst.threads.length = a.threads.length := fun t ht hi => (step_length ht).trans hi
  exact ⟨Automaton.path_inv (fun s => s.threads.length = a.threads.length) hstep hp hstart,
    Automaton.path_inv_src (fun s => s.threads.length = a.threads.length) hstep hp hstart⟩

/-- the position after an executed step, before the deadlock copy is made -/
theorem executed_pos {s : ConcurrentState} {sigma : Symbol} {m : Monitor} {p : RewardState}
    (h : sigma.threadId < s.threads.length) : (a.executed s sigma m p).pos sigma.threadId = p.state := by
  simp [executed, ConcurrentState.pos, List.getD_eq_getElem?_getD, h]

end Liss.ConcurrentAutomaton
