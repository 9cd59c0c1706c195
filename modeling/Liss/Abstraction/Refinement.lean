/-
The preemption-free semantics refines the preemptive one.

The simulation relates a state of the preemption-free automaton to the same state without a running thread, which is
how every state of the preemptive automaton looks. A step without progress changes the running thread only, so it is
invisible; a step that makes progress has found its symbol not blocked, so the preemptive automaton can take it, too.

- `run_refines`: a run of the preemption-free automaton, its steps without progress deleted, is a run of the preemptive
  one, with the same threads, locks and conditionals after every step;
- `accepts_refines`: what the preemption-free automaton accepts, symbols that are epsilon left out, the preemptive one
  accepts;
- `preemptionFree_refines`: both, for every program.
-/
import Liss.Abstraction.Steps

namespace Liss

namespace ConcurrentAutomaton

/-- what `apply_symbol` returns in `progress` -/
def progress (a : ConcurrentAutomaton) (t : Trans ConcurrentState Symbol) : Bool :=
  match a.applySymbol t.src t.sym with
  | .ok (some (_, progress)) => progress
  | _ => true

/-- thread positions, lock bits and conditional bits coincide -/
def Coincide (s b : ConcurrentState) : Prop :=
  s.threads = b.threads ∧ s.locks = b.locks ∧ s.conditionals = b.conditionals

/-- the same automaton for the preemptive semantics -/
def preemptive (a : ConcurrentAutomaton) : ConcurrentAutomaton := { a with concurrent := true }

/-- the state without running thread -/
def unscheduled (s : ConcurrentState) : ConcurrentState := { s with current := none }

variable {a : ConcurrentAutomaton} {ids : Identifiers} {t : Trans ConcurrentState Symbol}

theorem progress_of_yields (h : Yields t) : a.progress t = false := by
  rw [progress, applySymbol_yields a h.may h.op]

theorem progress_of_executes (h : a.Executes t) : a.progress t = true := by
  rw [progress, applySymbol_executes a h.free h.must]
  rcases a.applyBadTraceDnf t.src.toMonitor t.sym with e | (_ | m) <;> rfl

/-- a lock or a wait is no read, write or tag -/
theorem isEpsilon_of_yields (h : Yields t) : t.sym.isEpsilon = true := by
  have hop := h.op
  unfold conditionalYield at hop
  unfold Symbol.isEpsilon
  split at hop <;> simp_all

theorem step_invisible (h : a.automaton.Step t) (hp : a.progress t = false) :
    unscheduled t.dst = unscheduled t.src ∧ t.sym.isEpsilon = true := by
  obtain ⟨-, -, hy | he⟩ := (step_iff a t).1 h
  · exact ⟨by rw [hy.dst]; rfl, isEpsilon_of_yields hy⟩
  · exact absurd (progress_of_executes he) (by simp [hp])

/-- the preemptive automaton makes the same move from the unscheduled state -/
theorem executes_preemptive (h : a.Executes t) :
    a.preemptive.Executes ⟨unscheduled t.src, t.sym, unscheduled t.dst⟩ := by
  obtain ⟨m, hm, p, hp, hd⟩ := h.dst
  refine ⟨h.free, fun _ => rfl, m, hm, p, hp, ?_⟩
  have hexec : a.preemptive.executed (unscheduled t.src) t.sym m p = unscheduled (a.executed t.src t.sym m p) := by
    simp [executed, preemptive, unscheduled]
  rcases hd with hd | ⟨hdl, hfinal, hd⟩
  · left
    rw [hexec, hd]
  · right
    refine ⟨hdl, ?_, ?_⟩
    · rw [hexec]
      exact hfinal
    · rw [hexec, hd]
      rfl

theorem step_visible (ha : a.Numbered ids) (hlen : t.src.threads.length = a.threads.length) (h : a.automaton.Step t)
    (hp : a.progress t = true) : a.preemptive.automaton.Step ⟨unscheduled t.src, t.sym, unscheduled t.dst⟩ := by
  have hsingle := ((mem_intNextSymbols ha).1 ((step_iff a t).1 h).1).2
  obtain ⟨-, -, hy | he⟩ := (step_iff a t).1 h
  · exact absurd (progress_of_yields (a := a) hy) (by simp [hp])
  refine (step_iff _ _).2 ⟨?_, Or.inl rfl, Or.inr (executes_preemptive he)⟩
  have ha' : a.preemptive.Numbered ids := ha
  have hlt : t.sym.threadId < t.src.threads.length := by
    rw [hlen]
    exact thread_lt_of_offered (step_offered ha h)
  exact (mem_intNextSymbols ha').2 ⟨Or.inl ⟨rfl, hlt⟩, hsingle⟩

/-- **Simulation.** -/
theorem run_refines (ha : a.Numbered ids) {r : List (Trans ConcurrentState Symbol)} {s : ConcurrentState}
    (h : a.automaton.Run r s) :
    ∃ r', a.preemptive.automaton.Run r' (unscheduled s) ∧
      List.Forall₂ (fun x y => x.sym = y.sym ∧ y.dst = unscheduled x.dst) (r.filter a.progress) r' := by
  have hpath := run_iff.1 h
  let R : ConcurrentState → ConcurrentState → Prop := fun s b =>
    s.threads.length = a.threads.length ∧ b = unscheduled s
  have hdrop : ∀ t b, a.automaton.Step t → a.progress t = false → R t.src b → R t.dst b := by
    rintro t b ht hp ⟨hl, rfl⟩
    exact ⟨(step_length ht).trans hl, (step_invisible ht hp).1.symm⟩
  have hkeep : ∀ t b, a.automaton.Step t → a.progress t = true → R t.src b →
      ∃ b', a.preemptive.automaton.Step ⟨b, t.sym, b'⟩ ∧ R t.dst b' := by
    rintro t b ht hp ⟨hl, rfl⟩
    exact ⟨unscheduled t.dst, step_visible ha hl ht hp, (step_length ht).trans hl, rfl⟩
  have hstart : R a.startState a.preemptive.startState := ⟨by simp [startState], rfl⟩
  obtain ⟨r', b', hp', ⟨-, rfl⟩, hf⟩ := Automaton.drop_simulation R a.progress hdrop hkeep hpath hstart
  exact ⟨r', run_iff.2 hp', hf.imp fun x y hxy => ⟨hxy.1, hxy.2.2.2⟩⟩

/-- the deleted steps carry epsilon symbols only -/
theorem word_filter {r r' : List (Trans ConcurrentState Symbol)} (hstep : ∀ t ∈ r, a.automaton.Step t)
    {P : Trans ConcurrentState Symbol → Trans ConcurrentState Symbol → Prop}
    (hf : List.Forall₂ (fun x y => x.sym = y.sym ∧ P x y) (r.filter a.progress) r') :
    (Automaton.word r').filter (fun sy => !sy.isEpsilon) = (Automaton.word r).filter fun sy => !sy.isEpsilon := by
  induction r generalizing r' with
  | nil =>
    rw [List.forall₂_nil_left_iff.1 hf]
  | cons t r ih =>
    have hr : ∀ t ∈ r, a.automaton.Step t := fun x hx => hstep x (List.mem_cons_of_mem _ hx)
    cases hp : a.progress t with
    | false =>
      rw [List.filter_cons_of_neg (by simp [hp])] at hf
      have heps := (step_invisible (hstep t List.mem_cons_self) hp).2
      rw [Automaton.word_cons, List.filter_cons_of_neg (by simp [heps])]
      exact ih hr hf
    | true =>
      rw [List.filter_cons_of_pos hp] at hf
      obtain ⟨y, r'', ⟨hsym, -⟩, hf', rfl⟩ := List.forall₂_cons_left_iff.1 hf
      simp only [Automaton.word_cons, ← hsym, List.filter_cons, ih hr hf']

theorem accepts_refines (ha : a.Numbered ids) {w : List Symbol} (h : a.automaton.Accepts w) :
    ∃ w', a.preemptive.automaton.Accepts w' ∧
      w'.filter (fun sy => !sy.isEpsilon) = w.filter fun sy => !sy.isEpsilon := by
  obtain ⟨r, s, hrun, hfinal, rfl⟩ := h
  obtain ⟨r', hrun', hf⟩ := run_refines ha hrun
  obtain ⟨_, _, hpath⟩ := hrun
  exact ⟨Automaton.word r', ⟨r', _, hrun', hfinal, rfl⟩, word_filter hpath.step hf⟩

/-- **The preemption-free automaton of a program refines its preemptive automaton.** -/
theorem preemptionFree_refines (p : Program) (deadlock : Bool) :
    (∀ r s, (ofProgram p false deadlock).automaton.Run r s →
      ∃ r' s', (ofProgram p true deadlock).automaton.Run r' s' ∧
        List.Forall₂ (fun x y => x.sym = y.sym ∧ Coincide x.dst y.dst)
          (r.filter (ofProgram p false deadlock).progress) r') ∧
    ∀ w, (ofProgram p false deadlock).automaton.Accepts w →
      ∃ w', (ofProgram p true deadlock).automaton.Accepts w' ∧
        w'.filter (fun sy => !sy.isEpsilon) = w.filter fun sy => !sy.isEpsilon := by
  have ha := numbered_ofProgram p false deadlock
  constructor
  · intro r s h
    obtain ⟨r', hrun, hf⟩ := run_refines ha h
    refine ⟨r', _, hrun, hf.imp ?_⟩
    rintro x y ⟨hsym, hdst⟩
    exact ⟨hsym, by rw [hdst]; exact ⟨rfl, rfl, rfl⟩⟩
  · intro w h
    exact accepts_refines ha h

end ConcurrentAutomaton

end Liss
