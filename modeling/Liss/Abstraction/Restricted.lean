/-
The preemptive automaton with forbidden traces, against the one without.

The tables of the monitor do not touch threads, locks and conditionals, so the runs of the restricted automaton are
the runs of the unrestricted one whose words the monitor accepts.

- `runs_monitor`: the monitor accepts the word of every run;
- `monitor_exact`: a run of the unrestricted preemptive automaton is a run of the restricted one iff no prefix of its
  word violates a clause that has a lock.

A clause without locks forbids nothing (`empty_clause`): `add_forbidden_traces` has no lock to watch for it.
-/
import Liss.Abstraction.Steps
import Liss.Abstraction.Monitor

namespace Liss

namespace ConcurrentState

/-- the same state with another monitor -/
def withMonitor (s : ConcurrentState) (m : Monitor) : ConcurrentState := { s with toMonitor := m }

/-- the state as the unrestricted automaton has it -/
def forget (s : ConcurrentState) : ConcurrentState := s.withMonitor ⟨[], []⟩

end ConcurrentState

namespace ConcurrentAutomaton

variable {a b : ConcurrentAutomaton} {t : Trans ConcurrentState Symbol}

theorem executes_monitor (h : b.Executes t) :
    b.applyBadTraceDnf t.src.toMonitor t.sym = .ok (some t.dst.toMonitor) := by
  obtain ⟨m, hm, p, -, hd | ⟨-, -, hd⟩⟩ := h.dst
  · rw [hm, hd]; rfl
  · rw [hm, hd]; rfl

/-- the monitor follows a run -/
theorem path_monitor (hc : b.concurrent = true) {s s' : ConcurrentState} {r : List (Trans ConcurrentState Symbol)}
    (h : b.automaton.Path s r s') (hcur : s.current = none) :
    b.monitorRun s.toMonitor (Automaton.word r) = .ok (some s'.toMonitor) := by
  induction h with
  | nil s => rfl
  | @cons t r u ht _ ih =>
    obtain ⟨he, hcur'⟩ := step_preemptive hc ht hcur
    rw [Automaton.word_cons, monitorRun, executes_monitor he]
    exact ih hcur'

theorem runs_monitor (hc : b.concurrent = true) {w : List Symbol} (h : b.automaton.Runs w) :
    ∃ m, b.monitorRun b.startMonitor w = .ok (some m) := by
  obtain ⟨r, s, hr, rfl⟩ := h
  exact ⟨_, path_monitor hc (run_iff.1 hr) rfl⟩

/-! ## Other tables -/

theorem thread_congr (h : SameSettings b a) (i : ℕ) : b.thread i = a.thread i := by rw [thread, thread, h.1]

theorem executed_withMonitor (h : SameSettings b a) (s : ConcurrentState) (sigma : Symbol) (m m' m'' : Monitor)
    (p : RewardState) :
    b.executed (s.withMonitor m) sigma m' p = (a.executed s sigma m'' p).withMonitor m' := by
  simp only [executed, ConcurrentState.withMonitor, thread_congr h, h.2.1]

theorem executes_withMonitor (h : SameSettings b a) (he : a.Executes t) {m m' : Monitor}
    (hm : b.applyBadTraceDnf m t.sym = .ok (some m')) :
    b.Executes ⟨t.src.withMonitor m, t.sym, t.dst.withMonitor m'⟩ := by
  obtain ⟨m'', -, p, hp, hd⟩ := he.dst
  refine ⟨he.free, he.must, m', hm, p, ?_, ?_⟩
  · rw [thread_congr h]
    exact hp
  · rw [executed_withMonitor h t.src t.sym m m' m'' p, thread_congr h, h.2.2.1]
    rcases hd with hd | ⟨hdl, hfinal, hd⟩
    · exact Or.inl (by rw [hd])
    · exact Or.inr ⟨hdl, hfinal, by rw [hd]; rfl⟩

theorem intNextSymbols_withMonitor (h : SameSettings b a) (s : ConcurrentState) (m : Monitor) :
    b.intNextSymbols (s.withMonitor m) = a.intNextSymbols s := by
  have hsingle : b.nextSingle (s.withMonitor m) = a.nextSingle s := by
    funext i
    simp only [nextSingle, thread_congr h, h.2.2.2]
    rfl
  simp only [intNextSymbols, hsingle]
  rfl

/-- the steps have the same symbol and the same states, the monitor left out -/
def SameStep (x y : Trans ConcurrentState Symbol) : Prop :=
  x.sym = y.sym ∧ x.src.forget = y.src.forget ∧ x.dst.forget = y.dst.forget

/-- `r` is a run of `b`, the monitor left out -/
def IsRunOf (b : ConcurrentAutomaton) (r : List (Trans ConcurrentState Symbol)) : Prop :=
  ∃ r' s', b.automaton.Run r' s' ∧ List.Forall₂ SameStep r r'

/-- a path that the monitor accepts -/
theorem path_withMonitor (h : SameSettings b a) (hc : a.concurrent = true) {s s' : ConcurrentState}
    {r : List (Trans ConcurrentState Symbol)} (hp : a.automaton.Path s r s') (hcur : s.current = none) {m m' : Monitor}
    (hm : b.monitorRun m (Automaton.word r) = .ok (some m')) :
    ∃ r', b.automaton.Path (s.withMonitor m) r' (s'.withMonitor m') ∧ List.Forall₂ SameStep r r' := by
  induction hp generalizing m with
  | nil s =>
    simp only [Automaton.word_nil, monitorRun, Except.ok.injEq, Option.some.injEq] at hm
    subst hm
    exact ⟨[], .nil _, .nil⟩
  | @cons t r u ht _ ih =>
    obtain ⟨he, hcur'⟩ := step_preemptive hc ht hcur
    rw [Automaton.word_cons, monitorRun] at hm
    rcases hmon : b.applyBadTraceDnf m t.sym with e | (_ | m1)
    · simp [hmon] at hm
    · simp [hmon] at hm
    · simp only [hmon] at hm
      obtain ⟨r', hp', hf⟩ := ih hcur' hm
      have hnext : t.sym ∈ b.intNextSymbols (t.src.withMonitor m) := by
        rw [intNextSymbols_withMonitor h]
        exact ((step_iff a t).1 ht).1
      have hstep : b.automaton.Step ⟨t.src.withMonitor m, t.sym, t.dst.withMonitor m1⟩ :=
        (step_iff b _).2 ⟨hnext, Or.inl hcur, Or.inr (executes_withMonitor h he hmon)⟩
      exact ⟨⟨t.src.withMonitor m, t.sym, t.dst.withMonitor m1⟩ :: r', .cons hstep hp', .cons ⟨rfl, rfl, rfl⟩ hf⟩

theorem word_of_sameStep {r r' : List (Trans ConcurrentState Symbol)} (h : List.Forall₂ SameStep r r') :
    Automaton.word r = Automaton.word r' := by
  induction h with
  | nil => rfl
  | cons hxy _ ih => rw [Automaton.word_cons, Automaton.word_cons, hxy.1, ih]

/-- **Runs of the restricted automaton.** A run of the unrestricted automaton is a run of the restricted one iff the
monitor accepts its word. -/
theorem isRunOf_iff (h : SameSettings b a) (hc : a.concurrent = true) {r : List (Trans ConcurrentState Symbol)}
    {s : ConcurrentState} (hr : a.automaton.Run r s) :
    b.IsRunOf r ↔ ∃ m, b.monitorRun b.startMonitor (Automaton.word r) = .ok (some m) := by
  constructor
  · rintro ⟨r', s', hr', hf⟩
    rw [word_of_sameStep hf]
    exact runs_monitor (h.2.1.trans hc) ⟨r', s', hr', rfl⟩
  · rintro ⟨m, hm⟩
    obtain ⟨r', hp', hf⟩ := path_withMonitor h hc (run_iff.1 hr) rfl hm
    have hstart : a.startState.withMonitor b.startMonitor = b.startState := by
      simp [startState, startMonitor, ConcurrentState.withMonitor, h.1]
    rw [hstart] at hp'
    exact ⟨r', _, run_iff.2 hp', hf⟩

/-- the automaton after a sequence of calls of `add_forbidden_traces` -/
def restricted (p : Program) (deadlock : Bool) (calls : List LockSymbols) : ConcurrentAutomaton :=
  calls.foldl addForbiddenTraces (ofProgram p true deadlock)

theorem isRunOf_restricted (p : Program) (deadlock : Bool) (calls : List LockSymbols)
    (hwf : WellFormedClauses calls.flatten) (hsize : (restricted p deadlock calls).conflicts.length ≤ maxPayload + 1)
    {r : List (Trans ConcurrentState Symbol)} {s : ConcurrentState}
    (hr : (ofProgram p true deadlock).automaton.Run r s) :
    (restricted p deadlock calls).IsRunOf r ↔
      ∀ cl ∈ calls.flatten, cl ≠ [] → ¬ViolatesClause cl (events (Automaton.word r)) := by
  obtain ⟨⟨entries, hi⟩, hpad, hsame⟩ := installed_addForbiddenTraces p true deadlock calls
  have hlen : entries.length ≤ maxPayload + 1 := by
    have : (restricted p deadlock calls).conflicts.length = entries.length := by
      rw [restricted, hi.conflicts, List.length_map]
    omega
  have hiff : (restricted p deadlock calls).IsRunOf r ↔ _ := isRunOf_iff hsame rfl hr
  rw [hiff, monitorRun_iff hi hpad hwf (handled_of_length hlen _)]

/-- **The lock monitor is exact.** -/
theorem monitor_exact (p : Program) (deadlock : Bool) (calls : List LockSymbols)
    (hwf : WellFormedClauses calls.flatten) (hsize : (restricted p deadlock calls).conflicts.length ≤ maxPayload)
    {r : List (Trans ConcurrentState Symbol)} {s : ConcurrentState}
    (hr : (ofProgram p true deadlock).automaton.Run r s) :
    (restricted p deadlock calls).IsRunOf r ↔
      ∀ w, w <+: Automaton.word r → ∀ cl ∈ calls.flatten, cl ≠ [] → ¬ViolatesClause cl (events w) := by
  rw [isRunOf_restricted p deadlock calls hwf (by omega) hr]
  constructor
  · rintro h w ⟨w', hw⟩ cl hcl hne hv
    apply h cl hcl hne
    intro lock hlock
    have hev : events (Automaton.word r) = events w ++ events w' := by rw [← hw]; simp [events]
    rw [hev]
    exact (hv lock hlock).append _
  · intro h
    exact h _ (List.prefix_refl _)

/-! ## A lock around two writes -/

/-- `x=1; x=2;` and `y=1;` -/
def lockedProgram : Program :=
  Program.twoThreads ⟨2, 0, 0⟩ (Program.straight 0 [(.write, 0), (.write, 0)]) (Program.straight 1 [(.write, 1)]) 20
    (by decide) Program.straight_write_minimise (Program.straight_wellFormed (by simp [Symbol.known]))
    Program.straight_write_wellFormed

def write1 : Symbol := { operation := .write, var := 0, loc := ⟨0, 3⟩ }

def write2 : Symbol := { operation := .write, var := 0, loc := ⟨0, 4⟩ }

def writeOther : Symbol := { operation := .write, var := 1, loc := ⟨1, 3⟩ }

/-- the other thread interrupts the two writes -/
def interruptedRun : List (Trans ConcurrentState Symbol) × ConcurrentState :=
  ((ofProgram lockedProgram true false).automaton.trace (ofProgram lockedProgram true false).startState
    [write1, writeOther, write2]).get (by decide)

theorem interruptedRun_trace : (ofProgram lockedProgram true false).automaton.trace
    (ofProgram lockedProgram true false).startState [write1, writeOther, write2] =
      some (interruptedRun.1, interruptedRun.2) := by simp [interruptedRun]

theorem interruptedRun_run : (ofProgram lockedProgram true false).automaton.Run interruptedRun.1 interruptedRun.2 :=
  run_of_trace interruptedRun_trace

theorem interruptedRun_violates : ViolatesClause [[[write1, write2], [writeOther]]] [write1, writeOther, write2] := by
  intro lock hlock
  rw [List.mem_singleton.1 hlock]
  exact ⟨[], write1, [writeOther], write2, [], rfl, rfl, by decide, [write1, write2], by simp, (write1, write2),
    by decide, rfl, rfl, writeOther, by simp, [writeOther], by simp, by decide, by decide⟩

theorem interruptedRun_forbidden :
    ¬(restricted lockedProgram false [[[[[write1, write2], [writeOther]]]]]).IsRunOf interruptedRun.1 := by
  have hwf : WellFormedClauses [[[[[write1, write2], [writeOther]]]]].flatten := by
    intro cl hcl lock hlock
    obtain rfl : cl = [[[write1, write2], [writeOther]]] := by simpa using hcl
    obtain rfl : lock = [[write1, write2], [writeOther]] := by simpa using hlock
    decide
  intro h
  have hall := (monitor_exact lockedProgram false _ hwf (by decide) interruptedRun_run).1 h
  have hword : Automaton.word interruptedRun.1 = [write1, writeOther, write2] :=
    (Automaton.path_of_trace interruptedRun_trace).2
  exact hall _ (List.prefix_refl _) [[[write1, write2], [writeOther]]] (by simp) (by simp)
    (by rw [hword]; exact interruptedRun_violates)

/-- the claim of exactness fails for a clause without locks -/
theorem empty_clause :
    ¬ ∀ (p : Program) (deadlock : Bool) (calls : List LockSymbols), WellFormedClauses calls.flatten →
      (restricted p deadlock calls).conflicts.length ≤ maxPayload →
      ∀ r s, (ofProgram p true deadlock).automaton.Run r s →
        ((restricted p deadlock calls).IsRunOf r ↔
          ∀ w, w <+: Automaton.word r → ∀ cl ∈ calls.flatten, ¬ViolatesClause cl (events w)) := by
  intro hall
  have hwf : WellFormedClauses ([[[]]] : List LockSymbols).flatten := by
    intro cl hcl lock hlock
    obtain rfl : cl = [] := by simpa using hcl
    simp at hlock
  have hsize : (restricted lockedProgram false [[[]]]).conflicts.length ≤ maxPayload := by decide
  have hrun := interruptedRun_run
  have hok : (restricted lockedProgram false [[[]]]).IsRunOf interruptedRun.1 :=
    (isRunOf_restricted lockedProgram false [[[]]] hwf (by decide) hrun).2 (by
      intro cl hcl hne
      simp at hcl
      exact absurd hcl hne)
  have hno := (hall lockedProgram false [[[]]] hwf hsize _ _ hrun).1 hok [] (List.nil_prefix) [] (by simp)
  exact hno fun lock hlock => by simp at hlock

end ConcurrentAutomaton

end Liss
