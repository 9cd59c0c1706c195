/-
`abstraction/symbol.h` (`independence<symbol>`): when the search with sleep sets expands what the plain search expands.

Symbols of different threads are taken to be independent unless both access the same variable and one of them writes.
Operations on locks and conditionals count as epsilon symbols, so they are independent of everything another thread
does, also of an operation on the same lock: a lock that is blocked when it is put to sleep still sleeps after the other
thread has released it (`lockers_missed`). Reads, writes and tags of other threads do commute, and so do operations on
different locks and conditionals.

- `step_after`, `after_step`: the steps of the preemptive automaton;
- `expandSame_of_reorderable`: the two searches agree on every program in which every reachable state is reached by a
  word that leads there in any order;
- `commutes_of_separate`: this is so if no lock and no conditional is used by two threads, since then independent
  symbols commute.
-/
import Liss.Abstraction.FiniteStates
import Liss.Automata.SleepSets

namespace Liss

namespace Symbol

/-- `independence<symbol>` -/
def independent (a b : Symbol) : Bool :=
  a.threadId != b.threadId &&
    (a.var != b.var || (a.operation == .read && b.operation == .read) || a.isEpsilon || b.isEpsilon ||
      a.operation == .tag || b.operation == .tag)

/-- the operations on locks and conditionals -/
def synchronises (s : Symbol) : Bool := s.isEpsilon && s.operation != .yield && s.operation != .epsilon

theorem threadId_ne_of_independent {a b : Symbol} (h : a.independent b = true) : a.threadId ≠ b.threadId := by
  rw [independent, Bool.and_eq_true, bne_iff_ne] at h
  exact h.1

/-- equal symbols have the same operation, and unless they are tags the same variable -/
theorem operation_eq_of_key {a b : Symbol} (h : a.key = b.key) :
    a.operation = b.operation ∧ (a.operation ≠ .tag → a.var = b.var) := by
  simp only [key, Prod.mk.injEq] at h
  obtain ⟨-, htag, hop⟩ := h
  by_cases hb : b.tagBranch = -1
  · rw [htag, if_pos hb, if_pos hb] at hop
    obtain ⟨h1, h2⟩ := Prod.mk.inj (Option.some.inj hop)
    exact ⟨h1, fun _ => h2⟩
  · have ha : a.operation = .tag := a.flags.2.2 (htag ▸ hb)
    exact ⟨ha.trans (b.flags.2.2 hb).symm, fun hne => absurd ha hne⟩

theorem independent_congr {a a' b b' : Symbol} (ha : a.key = a'.key) (hb : b.key = b'.key) :
    a.independent b = a'.independent b' := by
  obtain ⟨hopa, hvara⟩ := operation_eq_of_key ha
  obtain ⟨hopb, hvarb⟩ := operation_eq_of_key hb
  have hthreada := threadId_eq_of_equals ((equals_iff_key a a').2 ha)
  have hthreadb := threadId_eq_of_equals ((equals_iff_key b b').2 hb)
  unfold independent isEpsilon
  rw [hthreada, hthreadb, hopa, hopb]
  -- the variable of a tag does not matter
  by_cases h1 : a'.operation = .tag
  · simp [h1]
  · by_cases h2 : b'.operation = .tag
    · simp [h2]
    · rw [hvara (hopa ▸ h1), hvarb (hopb ▸ h2)]

end Symbol

namespace ConcurrentAutomaton

open ConcurrentState Automaton

variable {a : ConcurrentAutomaton} {ids : Identifiers}

/-! ## Steps of the preemptive automaton -/

/-- where the thread of `sigma` can be after it -/
def targets (a : ConcurrentAutomaton) (sigma : Symbol) (p : ℤ) : List ℤ :=
  ((a.thread sigma.threadId).intSuccessors p sigma).flatMap fun q =>
    q.state :: if a.deadlock && (a.thread sigma.threadId).intIsFinalState q.state then [(noState : ℤ)] else []

/-- the state after `sigma`, up to the reward -/
def after (s : ConcurrentState) (sigma : Symbol) (q : ℤ) : ConcurrentState :=
  { s with
    threads := s.threads.set sigma.threadId q
    current := none
    reward := 0
    conditionals := condEffect sigma s.conditionals
    locks := lockEffect sigma s.locks }

theorem current_none (hc : a.concurrent = true) {s : ConcurrentState} (hs : a.automaton.Reachable s) :
    s.current = none :=
  reachable_inv (I := fun s => s.current = none) rfl (fun _ ht hcur => (step_preemptive hc ht hcur).2) hs

theorem executed_eraseReward (hc : a.concurrent = true) (s : ConcurrentState) (sigma : Symbol) (p : RewardState) :
    (a.executed s sigma s.toMonitor p).eraseReward = after s sigma p.state := by
  simp only [executed, hc, Bool.true_or, if_true, eraseReward, after]

theorem setPos_eraseReward (hc : a.concurrent = true) (s : ConcurrentState) (sigma : Symbol) (p : RewardState) (q : ℤ) :
    ((a.executed s sigma s.toMonitor p).setPos sigma.threadId q).eraseReward = after s sigma q := by
  simp only [executed, setPos, hc, Bool.true_or, if_true, eraseReward, after, List.set_set]

theorem monitor_passes (h : a.Plain) (ha : a.Numbered ids) {s : ConcurrentState} (hs : a.automaton.Reachable s)
    (sigma : Symbol) : a.applyBadTraceDnf s.toMonitor sigma = .ok (some s.toMonitor) := by
  rw [(bounded_of_reachable h ha hs).monitor]
  exact h.applyBadTraceDnf_start sigma

theorem step_after (h : a.Plain) (ha : a.Numbered ids) (hc : a.concurrent = true) {t : Trans ConcurrentState Symbol}
    (hs : a.automaton.Reachable t.src) (ht : a.automaton.Step t) :
    t.sym ∈ a.intNextSymbols t.src ∧ blocked t.src t.sym = false ∧
      ∃ q ∈ a.targets t.sym (t.src.pos t.sym.threadId), t.dst.eraseReward = after t.src t.sym q := by
  obtain ⟨he, -⟩ := step_preemptive hc ht (current_none hc hs)
  obtain ⟨m, hm, p, hp, hdst⟩ := he.dst
  rw [monitor_passes h ha hs] at hm
  obtain rfl := Option.some.inj (Except.ok.inj hm)
  refine ⟨ht.1, he.free, ?_⟩
  rcases hdst with hdst | ⟨hdeadlock, hfinal, hdst⟩
  · refine ⟨p.state, List.mem_flatMap.2 ⟨p, hp, List.mem_cons_self⟩, ?_⟩
    rw [hdst, executed_eraseReward hc]
  · have hlt : t.sym.threadId < t.src.threads.length := by
      rw [(bounded_of_reachable h ha hs).length]
      exact thread_lt_of_offered (step_offered ha ht)
    rw [executed_pos hlt] at hfinal
    refine ⟨noState, List.mem_flatMap.2 ⟨p, hp, List.mem_cons_of_mem _ ?_⟩, ?_⟩
    · rw [hdeadlock, hfinal]
      exact List.mem_cons_self
    · rw [hdst, setPos_eraseReward hc]

theorem after_step (h : a.Plain) (ha : a.Numbered ids) (hc : a.concurrent = true) {s : ConcurrentState}
    (hs : a.automaton.Reachable s) {sigma : Symbol} (hsigma : sigma ∈ a.intNextSymbols s)
    (hfree : blocked s sigma = false) {q : ℤ} (hq : q ∈ a.targets sigma (s.pos sigma.threadId)) :
    ∃ s', a.automaton.Step ⟨s, sigma, s'⟩ ∧ s'.eraseReward = after s sigma q := by
  have hcur := current_none hc hs
  have hmust : conditionalYield sigma = true → mustSucceed s sigma = true := fun _ => by simp [mustSucceed, hcur]
  obtain ⟨p, hp, hq⟩ := List.mem_flatMap.1 hq
  have hlt : sigma.threadId < s.threads.length := by
    rw [(bounded_of_reachable h ha hs).length]
    exact thread_lt_of_offered (offered ((mem_intNextSymbols ha).1 hsigma).2)
  rcases List.mem_cons.1 hq with rfl | hq
  · refine ⟨a.executed s sigma s.toMonitor p, (step_iff a _).2 ⟨hsigma, .inl hcur, .inr ⟨hfree, hmust, ?_⟩⟩, ?_⟩
    · exact ⟨_, monitor_passes h ha hs sigma, p, hp, .inl rfl⟩
    · exact executed_eraseReward hc s sigma p
  · split_ifs at hq with hif
    · rw [Bool.and_eq_true] at hif
      obtain rfl := List.mem_singleton.1 hq
      refine ⟨(a.executed s sigma s.toMonitor p).setPos sigma.threadId noState,
        (step_iff a _).2 ⟨hsigma, .inl hcur, .inr ⟨hfree, hmust, ?_⟩⟩, ?_⟩
      · refine ⟨_, monitor_passes h ha hs sigma, p, hp, .inr ⟨hif.1, ?_, rfl⟩⟩
        rw [executed_pos hlt]
        exact hif.2
      · exact setPos_eraseReward hc s sigma p noState
    · exact absurd hq List.not_mem_nil

/-! ## What the search needs -/

/-- equal symbols do the same -/
theorem targets_congr {sigma tau : Symbol} (h : sigma.key = tau.key) (p : ℤ) : a.targets sigma p = a.targets tau p := by
  have hsame : ∀ s, sameSymbol s sigma = sameSymbol s tau := by
    intro s
    cases s with
    | none => rfl
    | some x =>
      rw [Bool.eq_iff_iff, sameSymbol_iff, sameSymbol_iff]
      simp only [Option.some.injEq, exists_eq_left', Symbol.equals_iff_key, h]
  have hthread : sigma.threadId = tau.threadId := Symbol.threadId_eq_of_equals ((Symbol.equals_iff_key _ _).2 h)
  have hedges : ∀ (c : AbstractCfg) es, c.edgeSuccessors sigma es = c.edgeSuccessors tau es := by
    intro c es
    induction es with
    | nil => rfl
    | cons e es ih => rw [AbstractCfg.edgeSuccessors, AbstractCfg.edgeSuccessors, hsame, hsame, ih]
  have hsucc : ∀ c : AbstractCfg, c.intSuccessors p sigma = c.intSuccessors p tau := by
    intro c
    rw [AbstractCfg.intSuccessors, AbstractCfg.intSuccessors, hsame, hedges]
  rw [targets, targets, hthread, hsucc]

theorem effect_congr {sigma tau : Symbol} (h : sigma.key = tau.key) (s : ConcurrentState) :
    blocked s sigma = blocked s tau ∧ condEffect sigma s.conditionals = condEffect tau s.conditionals ∧
      lockEffect sigma s.locks = lockEffect tau s.locks := by
  obtain ⟨hop, hvar⟩ := Symbol.operation_eq_of_key h
  unfold blocked condEffect lockEffect
  rw [hop]
  by_cases htag : tau.operation = .tag
  · rw [htag]
    exact ⟨rfl, rfl, rfl⟩
  · rw [hvar (hop ▸ htag)]
    exact ⟨rfl, rfl, rfl⟩

/-- **Equal symbols are interchangeable.** -/
theorem respectsLabel (h : a.Plain) (ha : a.Numbered ids) (hc : a.concurrent = true) :
    PerfTest.RespectsLabel a.automaton eraseReward Symbol.key Symbol.independent := by
  refine ⟨fun t hs ht tau htau hoffered => ?_, fun _ _ _ _ => Symbol.independent_congr⟩
  obtain ⟨-, hfree, q, hq, hdst⟩ := step_after h ha hc hs ht
  obtain ⟨hblocked, hcond, hlock⟩ := effect_congr htau t.src
  have hthread : t.sym.threadId = tau.threadId := Symbol.threadId_eq_of_equals ((Symbol.equals_iff_key _ _).2 htau)
  rw [targets_congr htau, hthread] at hq
  obtain ⟨s', hstep, hkey⟩ := after_step h ha hc hs hoffered (hblocked ▸ hfree) hq
  refine ⟨s', hstep, ?_⟩
  rw [hkey, hdst, after, after, hthread, hcond, hlock]

/-- what a thread offers does not depend on the other threads -/
theorem offered_frame (ha : a.Numbered ids) (hc : a.concurrent = true) {t : Trans ConcurrentState Symbol}
    (hs : a.automaton.Reachable t.src) (ht : a.automaton.Step t) {tau : Symbol}
    (hne : tau.threadId ≠ t.sym.threadId) : tau ∈ a.intNextSymbols t.dst ↔ tau ∈ a.intNextSymbols t.src := by
  have hsrc := current_none hc hs
  have hdst := current_none hc (hs.step ht)
  rw [mem_intNextSymbols ha, mem_intNextSymbols ha, hsrc, hdst, step_length ht, nextSingle, nextSingle,
    step_frame ht hne]

/-- **Independent symbols stay offered.** -/
theorem persistent (ha : a.Numbered ids) (hc : a.concurrent = true) :
    PerfTest.Persistent a.automaton Symbol.independent :=
  fun _ hs ht _ htau hi => (offered_frame ha hc hs ht (Symbol.threadId_ne_of_independent hi)).2 htau

/-! ## Threads that share no lock -/

/-- an update of a set at the numbers `P` alone, where it looks at nothing else -/
structure ActsOn (f : Finset ℕ → Finset ℕ) (P : ℕ → Prop) : Prop where
  outside : ∀ v c, ¬P v → (v ∈ f c ↔ v ∈ c)
  inside : ∀ v c c', (v ∈ c ↔ v ∈ c') → (v ∈ f c ↔ v ∈ f c')

theorem ActsOn.comm {f g : Finset ℕ → Finset ℕ} {P Q : ℕ → Prop} (hf : ActsOn f P) (hg : ActsOn g Q)
    (h : ∀ v, P v → ¬Q v) (c : Finset ℕ) : f (g c) = g (f c) := by
  ext v
  by_cases hP : P v
  · calc v ∈ f (g c) ↔ v ∈ f c := hf.inside v _ _ (hg.outside v c (h v hP))
      _ ↔ v ∈ g (f c) := (hg.outside v _ (h v hP)).symm
  · calc v ∈ f (g c) ↔ v ∈ g c := hf.outside v _ hP
      _ ↔ v ∈ g (f c) := hg.inside v _ _ (hf.outside v c hP).symm

/-- the number on which the symbol operates -/
def Uses (sigma : Symbol) (v : ℕ) : Prop := sigma.synchronises = true ∧ v = sigma.var

theorem actsOn_condEffect (sigma : Symbol) : ActsOn (condEffect sigma) (Uses sigma) := by
  refine ⟨fun v c hv => ?_, fun v c c' h => ?_⟩
  · unfold Uses Symbol.synchronises Symbol.isEpsilon at hv
    unfold condEffect
    cases hop : sigma.operation <;> simp_all
  · unfold condEffect
    cases sigma.operation <;> simp [h]

theorem actsOn_lockEffect (sigma : Symbol) : ActsOn (lockEffect sigma) (Uses sigma) := by
  refine ⟨fun v c hv => ?_, fun v c c' h => ?_⟩
  · unfold Uses Symbol.synchronises Symbol.isEpsilon at hv
    unfold lockEffect
    cases hop : sigma.operation <;> simp_all
  · unfold lockEffect
    cases sigma.operation <;> simp [h]

theorem blocked_after {s : ConcurrentState} {sigma tau : Symbol} {q : ℤ} (h : ∀ v, Uses tau v → ¬Uses sigma v) :
    blocked (after s sigma q) tau = blocked s tau := by
  have hcond : tau.synchronises = true →
      (tau.var ∈ condEffect sigma s.conditionals ↔ tau.var ∈ s.conditionals) :=
    fun hsync => (actsOn_condEffect sigma).outside _ _ (h _ ⟨hsync, rfl⟩)
  have hlock : tau.synchronises = true → (tau.var ∈ lockEffect sigma s.locks ↔ tau.var ∈ s.locks) :=
    fun hsync => (actsOn_lockEffect sigma).outside _ _ (h _ ⟨hsync, rfl⟩)
  unfold Symbol.synchronises Symbol.isEpsilon at hcond hlock
  unfold blocked after
  cases hop : tau.operation <;> simp_all

theorem after_comm {s : ConcurrentState} {sigma tau : Symbol} {p q : ℤ} (hne : sigma.threadId ≠ tau.threadId)
    (h : ∀ v, Uses tau v → ¬Uses sigma v) :
    after (after s sigma p) tau q = after (after s tau q) sigma p := by
  simp only [after, List.set_comm _ _ hne, (actsOn_condEffect tau).comm (actsOn_condEffect sigma) h,
    (actsOn_lockEffect tau).comm (actsOn_lockEffect sigma) h]

/-- no number of a lock or conditional is used by two threads -/
def Separate (a : ConcurrentAutomaton) : Prop :=
  ∀ sigma tau : Symbol, ∀ p q, sigma ∈ (a.thread sigma.threadId).intNextSymbols p →
    tau ∈ (a.thread tau.threadId).intNextSymbols q → sigma.threadId ≠ tau.threadId → ∀ v, Uses sigma v → ¬Uses tau v

/-- **Separate threads commute.** -/
theorem commutes_of_separate (h : a.Plain) (ha : a.Numbered ids) (hc : a.concurrent = true) (hsep : a.Separate) :
    Commutes a.automaton eraseReward Symbol.independent := by
  intro t u hs ht hu hsrc hi
  have hne := Symbol.threadId_ne_of_independent hi
  have hdisj : ∀ v, Uses u.sym v → ¬Uses t.sym v :=
    hsep u.sym t.sym _ _ (step_offered ha hu) (step_offered ha ht) hne
  obtain ⟨hoffered, hfree, p, hp, hdst⟩ := step_after h ha hc hs ht
  obtain ⟨hoffered', hfree', q, hq, hdst'⟩ := step_after h ha hc (hsrc ▸ hs.step ht) hu
  rw [hsrc] at hoffered' hfree' hq hdst'
  -- the later symbol first
  have hfirst : blocked t.src u.sym = false := by
    rw [← blocked_after hdisj, ← hdst]
    exact hfree'
  rw [step_frame ht hne] at hq
  obtain ⟨x, hx, hxkey⟩ := after_step h ha hc hs ((offered_frame ha hc hs ht hne).1 hoffered') hfirst hq
  -- and the earlier one after it
  have hthen : blocked x t.sym = false := by
    have hblocked : blocked x.eraseReward t.sym = blocked t.src t.sym := by
      rw [hxkey, blocked_after fun v hv hv' => hdisj v hv' hv]
    exact hblocked.trans hfree
  have hframe : x.pos t.sym.threadId = t.src.pos t.sym.threadId := step_frame hx hne.symm
  rw [← hframe] at hp
  have hoffered'' : t.sym ∈ a.intNextSymbols x :=
    (offered_frame (t := ⟨t.src, u.sym, x⟩) ha hc hs hx hne.symm).2 hoffered
  obtain ⟨y, hy, hykey⟩ := after_step h ha hc (Reachable.step (t := ⟨t.src, u.sym, x⟩) hs hx) hoffered'' hthen hp
  refine ⟨x, y, hx, hy, ?_⟩
  calc y.eraseReward = after x.eraseReward t.sym p := hykey
    _ = after t.dst.eraseReward u.sym q := by rw [hxkey, hdst, after_comm hne fun v hv hv' => hdisj v hv' hv]
    _ = u.dst.eraseReward := hdst'.symm

end ConcurrentAutomaton

/-! ## The two searches on a program -/

namespace PerfTest

open ConcurrentAutomaton Automaton

/-- `perf_test::run` on the preemptive automaton -/
def perfTest (p : Program) (deadlock : Bool) (order : ℕ → SymbolOrder Symbol) (fuel : ℕ) :
    Option (Explored ConcurrentState ConcurrentState Symbol) :=
  run (ofProgram p true deadlock).automaton ConcurrentState.eraseReward Symbol.key Symbol.independent order fuel

/-- `perf_test_old::run` on it -/
def perfTestOld (p : Program) (deadlock : Bool) (fuel : ℕ) : Option (ExploredOld ConcurrentState ConcurrentState) :=
  runOld (ofProgram p true deadlock).automaton ConcurrentState.eraseReward fuel

/-- both searches end, and expand the same states, as `operator==` compares them -/
def ExpandSame (p : Program) (deadlock : Bool) (order : ℕ → SymbolOrder Symbol) : Prop :=
  ∃ bound, ∀ fuel ≥ bound, ∃ r r', perfTest p deadlock order fuel = some r ∧ perfTestOld p deadlock fuel = some r' ∧
    ∀ k, k ∈ r.expanded.map ConcurrentState.eraseReward ↔ k ∈ r'.expanded.map ConcurrentState.eraseReward

/-- **The searches agree** if every reachable state is reached by a word that leads there in any order. -/
theorem expandSame_of_reorderable (p : Program) (deadlock : Bool) (order : ℕ → SymbolOrder Symbol)
    (hre : (ofProgram p true deadlock).automaton.Reorderable ConcurrentState.eraseReward Symbol.independent) :
    ExpandSame p deadlock order := by
  have h := plain_ofProgram p true deadlock
  have ha := numbered_ofProgram p true deadlock
  have hr := respects_eraseReward (ofProgram p true deadlock)
  have hfin := finiteKeys h ha
  have hp := persistent ha rfl
  obtain ⟨bound, hbound⟩ := run_total Symbol.key order hr hp hfin
  obtain ⟨boundOld, hboundOld⟩ := old_total hfin
  refine ⟨max bound boundOld, fun fuel hfuel => ?_⟩
  obtain ⟨r, hrun⟩ := hbound fuel (le_trans (Nat.le_max_left _ _) hfuel)
  obtain ⟨r', hrun'⟩ := hboundOld fuel (le_trans (Nat.le_max_right _ _) hfuel)
  exact ⟨r, r', hrun, hrun', expanded_eq hr hp (respectsLabel h ha rfl) hre hrun hrun'⟩

/-! ## One lock in one thread -/

/-- `lock(l); y=x; unlock(l);`, of which the access to `x` is kept, and `x=2;` -/
def oneLocker : Program :=
  Program.twoThreads ⟨1, 1, 0⟩ (Program.straight 0 [(.lock, 0), (.read, 0), (.unlock, 0)])
    (Program.straight 1 [(.write, 0)]) 30 (by decide) (by decide)
    (Program.straight_wellFormed (by simp [Symbol.known])) (Program.straight_wellFormed (by simp [Symbol.known]))

/-- no operation of the second thread is one on a lock -/
theorem oneLocker_separate : (ofProgram oneLocker true false).Separate := by
  have hsecond : ∀ s ∈ ((ofProgram oneLocker true false).thread 1).states, ∀ act, s.action = some act →
      act.synchronises = false := by decide
  have hwrites : ∀ {tau : Symbol} {p}, tau.threadId = 1 →
      tau ∈ ((ofProgram oneLocker true false).thread tau.threadId).intNextSymbols p → tau.synchronises = false := by
    intro tau p htau hoffered
    rw [htau] at hoffered
    rcases ((numbered_ofProgram oneLocker true false 1).1).action_or_tag hoffered with ⟨s, hs, hact⟩ | htag
    · exact hsecond s hs tau hact
    · simp [Symbol.synchronises, Symbol.isEpsilon, htag]
  intro sigma tau p q hsigma htau hne v hv hv'
  have hs := thread_lt_of_offered hsigma
  have ht := thread_lt_of_offered htau
  have htwo : (ofProgram oneLocker true false).threads.length = 2 := rfl
  by_cases h1 : sigma.threadId = 1
  · exact absurd hv.1 (by simp [hwrites h1 hsigma])
  · exact absurd hv'.1 (by simp [hwrites (show tau.threadId = 1 by omega) htau])

/-- the symbols are visited in the order in which they are inserted -/
def inserted : SymbolOrder Symbol := ⟨id, fun l => List.Perm.refl l⟩

theorem oneLocker_expandSame : ExpandSame oneLocker false fun _ => inserted :=
  expandSame_of_reorderable oneLocker false (fun _ => inserted)
    (reorderable_of_commutes (respects_eraseReward _) (commutes_of_separate (plain_ofProgram oneLocker true false)
      (numbered_ofProgram oneLocker true false) rfl oneLocker_separate))

/-! ## A lock in two threads -/

/-- `lock(l); unlock(l);` in both threads -/
def lockers : Program :=
  Program.twoThreads ⟨0, 1, 0⟩ (Program.straight 0 [(.lock, 0), (.unlock, 0)])
    (Program.straight 1 [(.lock, 0), (.unlock, 0)]) 40 (by decide) (by decide)
    (Program.straight_wellFormed (by simp [Symbol.known])) (Program.straight_wellFormed (by simp [Symbol.known]))

/-- the first thread holds the lock, the second one is done -/
def lateLocker : ConcurrentState :=
  { locksviolated := [], conflicts := [], threads := [4, 6], locks := {0} }

theorem perfTest_lockers :
    (perfTest lockers false (fun _ => inserted) 40).any (fun r => lateLocker ∉ r.expanded.map .eraseReward) = true := by
  decide +kernel

theorem perfTestOld_lockers :
    (perfTestOld lockers false 40).any (fun r => lateLocker ∈ r.expanded.map .eraseReward) = true := by
  decide +kernel

/-- **A state is missed.** When the second thread has the lock, the lock of the first one is asleep, and it still is
when the second one has released it. -/
theorem lockers_missed : ¬∀ p deadlock order, ExpandSame p deadlock order := by
  intro h
  obtain ⟨bound, hbound⟩ := h lockers false fun _ => inserted
  obtain ⟨r, r', hrun, hrun', hsame⟩ := hbound (max bound 40) (Nat.le_max_left _ _)
  obtain ⟨r0, hr0, hmissed⟩ := (Option.any_eq_true _ _).1 perfTest_lockers
  obtain ⟨r1, hr1, hfound⟩ := (Option.any_eq_true _ _).1 perfTestOld_lockers
  have h40 : 40 ≤ max bound 40 := Nat.le_max_right _ _
  obtain rfl : r = r0 := Option.some.inj (hrun.symm.trans (Stack.run_mono h40 hr0))
  obtain rfl : r' = r1 := Option.some.inj (hrun'.symm.trans (Stack.run_mono h40 hr1))
  exact of_decide_eq_true hmissed ((hsame lateLocker).2 (of_decide_eq_true hfound))

end PerfTest

end Liss
