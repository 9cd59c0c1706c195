/-
The instrumented program refines the preemptive automaton.

An execution of the instrumented program is matched by a run of the product of the minimised threads: where a thread
executes an action, its automaton takes the tag of the branch to it, if there is one, and then the action; the placed
operations and the moves between states are matched by nothing. So whatever the placed locks are, they only restrict
what the threads do.

- `lift_path`: a path of one thread automaton is a path of the product;
- `acts_simulated`: each step of the instrumented program is matched;
- `instrumented_runs`: the actions of every execution are the untagged word of a run, and those of an execution that has
  ended are the untagged word of an accepted one.
-/
import Liss.Abstraction.Accepted
import Liss.Cfg.Walks
import Liss.Placement.Protection

namespace Liss

namespace ConcurrentAutomaton

variable {a : ConcurrentAutomaton} {ids : Identifiers} {s s' : ConcurrentState} {t : ℕ}

/-- the lock bits after some symbols -/
def lockEffects (w : List Symbol) (locks : Finset ℕ) : Finset ℕ := w.foldl (fun locks sigma => lockEffect sigma locks) locks

/-- the conditional bits after some symbols -/
def condEffects (w : List Symbol) (conditionals : Finset ℕ) : Finset ℕ :=
  w.foldl (fun conditionals sigma => condEffect sigma conditionals) conditionals

/-- a state of the preemptive automaton in which every thread is at a position -/
structure Idle (a : ConcurrentAutomaton) (s : ConcurrentState) : Prop where
  current : s.current = none
  conflicts : s.conflicts = []
  length : s.threads.length = a.threads.length

/-- thread `t` has read `w` and come to `q` -/
structure Moved (a : ConcurrentAutomaton) (t : ℕ) (w : List Symbol) (q : ℤ) (s s' : ConcurrentState) : Prop where
  idle : a.Idle s'
  own : s'.pos t = q
  other : ∀ t' ≠ t, s'.pos t' = s.pos t'
  locks : s'.locks = lockEffects w s.locks
  conditionals : s'.conditionals = condEffects w s.conditionals

theorem Moved.refl (h : a.Idle s) (t : ℕ) : a.Moved t [] (s.pos t) s s := ⟨h, rfl, fun _ _ => rfl, rfl, rfl⟩

theorem Moved.trans {w w' : List Symbol} {q q' : ℤ} {s'' : ConcurrentState} (h : a.Moved t w q s s')
    (h' : a.Moved t w' q' s' s'') : a.Moved t (w ++ w') q' s s'' where
  idle := h'.idle
  own := h'.own
  other t' ht' := (h'.other t' ht').trans (h.other t' ht')
  locks := by rw [h'.locks, h.locks, lockEffects, lockEffects, lockEffects, List.foldl_append]
  conditionals := by rw [h'.conditionals, h.conditionals, condEffects, condEffects, condEffects, List.foldl_append]

/-- a step of a thread automaton is a step of the product -/
theorem lift_step (h : a.Plain) (ha : a.Numbered ids) (hc : a.concurrent = true) (hi : a.Idle s)
    {sigma : Symbol} {q : ℤ} (hstep : (a.thread t).threadAutomaton.Step ⟨s.pos t, sigma, q⟩)
    (hpos : s.pos t ≠ noState) (hfree : blocked s sigma = false) :
    ∃ s', a.automaton.Step ⟨s, sigma, s'⟩ ∧ a.Moved t [sigma] q s s' ∧ q ≠ noState := by
  obtain ⟨hoff, hsucc⟩ := hstep
  obtain ⟨p, hp, rfl⟩ := List.mem_map.1 hsucc
  obtain rfl : sigma.threadId = t := ((ha t).1.nextSymbols hoff).1.trans (ha t).2
  have hlt : sigma.threadId < s.threads.length := hi.length ▸ thread_lt_of_offered hoff
  have hnext : sigma ∈ a.intNextSymbols s := by
    refine (mem_intNextSymbols ha).2 ⟨.inl ⟨hi.current, hlt⟩, ?_⟩
    rw [nextSingle, if_pos hpos]
    exact List.mem_filter.2 ⟨hoff, by simp [h.filter]⟩
  obtain ⟨mon, hmon, hconf⟩ := h.applyBadTraceDnf hi.conflicts sigma
  refine ⟨a.executed s sigma mon p, (step_iff a _).2 ⟨hnext, .inl hi.current, .inr ⟨hfree, fun _ => ?_, mon, hmon, p, hp,
    .inl rfl⟩⟩, ⟨⟨by simp [executed, hc], hconf, by simp [executed, hi.length]⟩, executed_pos hlt, fun t' ht' => ?_, rfl,
    rfl⟩, (ha _).1.successors_ne hp hpos⟩
  · simp [mustSucceed, hi.current]
  · simp [executed, ConcurrentState.pos, List.getD_eq_getElem?_getD, List.getElem?_set_ne (Ne.symm ht')]

/-- a tag has no effect -/
theorem tag_effects {sigma : Symbol} (h : sigma.operation = .tag) (s : ConcurrentState) :
    blocked s sigma = false ∧ (∀ L, lockEffect sigma L = L) ∧ ∀ C, condEffect sigma C = C := by
  simp [blocked, lockEffect, condEffect, h]

theorem blocked_congr (hl : s'.locks = s.locks) (hc : s'.conditionals = s.conditionals) (sigma : Symbol) :
    blocked s' sigma = blocked s sigma := by
  simp only [blocked, hl, hc]

/-- **a path of a thread automaton** with at most one action is a path of the product -/
theorem lift_path (h : a.Plain) (ha : a.Numbered ids) (hc : a.concurrent = true) (hi : a.Idle s)
    {r : List (Trans ℤ Symbol)} {q : ℤ} (hp : (a.thread t).threadAutomaton.Path (s.pos t) r q)
    (hpos : s.pos t ≠ noState) (hlen : (untagged (Automaton.word r)).length ≤ 1)
    (hfree : ∀ x ∈ untagged (Automaton.word r), blocked s x = false) :
    ∃ r' s', a.automaton.Path s r' s' ∧ Automaton.word r' = Automaton.word r ∧
      a.Moved t (untagged (Automaton.word r)) q s s' ∧ q ≠ noState := by
  generalize hstart : s.pos t = q0 at hp
  induction hp generalizing s with
  | nil q => exact ⟨[], s, .nil s, rfl, hstart ▸ .refl hi t, hstart ▸ hpos⟩
  | @cons tr r u hstep _ ih =>
    obtain ⟨src, sigma, dst⟩ := tr
    simp only at hstart
    subst hstart
    by_cases htag : sigma.operation = .tag
    · -- the tag leaves the bits as they are
      obtain ⟨hnot, hlocks, hconds⟩ := tag_effects htag s
      have hword : untagged (Automaton.word (⟨s.pos t, sigma, dst⟩ :: r)) = untagged (Automaton.word r) := by
        simp [untagged, htag]
      rw [hword] at hlen hfree ⊢
      obtain ⟨s1, hs1, hm1, hne⟩ := lift_step h ha hc hi hstep hpos hnot
      have hl1 : s1.locks = s.locks := hm1.locks.trans (hlocks _)
      have hc1 : s1.conditionals = s.conditionals := hm1.conditionals.trans (hconds _)
      obtain ⟨r', s', hp', hw', hm', hne'⟩ := ih hm1.idle (hm1.own.symm ▸ hne) hlen
        (fun x hx => (blocked_congr hl1 hc1 x).trans (hfree x hx)) hm1.own
      refine ⟨⟨s, sigma, s1⟩ :: r', s', .cons hs1 hp', by rw [Automaton.word_cons, Automaton.word_cons, hw'], ?_, hne'⟩
      exact ⟨hm'.idle, hm'.own, fun t' ht' => (hm'.other t' ht').trans (hm1.other t' ht'), by rw [hm'.locks, hl1],
        by rw [hm'.conditionals, hc1]⟩
    · have hword : untagged (Automaton.word (⟨s.pos t, sigma, dst⟩ :: r)) = sigma :: untagged (Automaton.word r) := by
        simp [untagged, htag]
      rw [hword] at hlen hfree ⊢
      have hnil : untagged (Automaton.word r) = [] := by
        rw [List.length_cons] at hlen
        exact List.length_eq_zero_iff.1 (by omega)
      obtain ⟨s1, hs1, hm1, hne⟩ := lift_step h ha hc hi hstep hpos (hfree sigma List.mem_cons_self)
      obtain ⟨r', s', hp', hw', hm', hne'⟩ := ih hm1.idle (hm1.own.symm ▸ hne) (by simp [hnil])
        (by simp [hnil]) hm1.own
      refine ⟨⟨s, sigma, s1⟩ :: r', s', .cons hs1 hp', by rw [Automaton.word_cons, Automaton.word_cons, hw'], ?_, hne'⟩
      exact hm1.trans hm'

end ConcurrentAutomaton

namespace PlaceLocks

open ConcurrentAutomaton (ofProgram Idle Moved lift_path lockEffects condEffects)

variable {p : Program} {text : PositionType → Location → List (PlacedOp × ℕ)} {s s' : Config} {w : List Symbol}
  {a a' : ConcurrentState} {t : ℕ} {c : AbstractCfg}

/-- the preemptive automaton of the program -/
def preemptive (p : Program) : ConcurrentAutomaton := ofProgram p true false

/-- what the automaton needs of the threads -/
structure Followable (p : Program) : Prop where
  framed : ∀ c ∈ p.threads, c.Framed
  narrow : ∀ t, (p.minimisedThread t).Narrow

/-- the automaton has followed every thread -/
structure Follows (p : Program) (s : Config) (a : ConcurrentState) : Prop where
  idle : (preemptive p).Idle a
  locks : a.locks = s.shared.locks
  conditionals : a.conditionals = s.shared.conditionals
  active : ∀ t c, p.threads[t]? = some c → a.pos t ≠ noState ∧ (s.threads t).state ≠ noState
  tracks : ∀ t (c : AbstractCfg), p.threads[t]? = some c →
    AbstractCfg.Tracks c (p.minimisedThread t) (s.threads t).state ((s.threads t).phase = .after) (a.pos t)

theorem follows_start (p : Program) : Follows p (initialConfig text) (preemptive p).startState := by
  have hpos : ∀ t c, p.threads[t]? = some c → (preemptive p).startState.pos t = -1 := by
    intro t c ht
    refine ConcurrentAutomaton.pos_startState ?_
    show t < p.minimisedThreads.length
    rw [p.length_minimised]
    exact (List.getElem?_eq_some_iff.1 ht).1
  refine ⟨⟨rfl, rfl, by simp [ConcurrentAutomaton.startState]⟩, rfl, rfl, fun t c ht => ?_, fun t c ht => ?_⟩
  · rw [hpos t c ht]
    exact ⟨by decide, Nat.one_ne_zero⟩
  · rw [hpos t c ht]
    exact AbstractCfg.tracks_start c _

/-- the threads other than `t` are where they were -/
theorem Follows.other (h : Follows p s a) {q : ℤ} (hm : (preemptive p).Moved t w q a a')
    (hframe : ∀ t' ≠ t, s'.threads t' = s.threads t') (hlocks : a'.locks = s'.shared.locks)
    (hconds : a'.conditionals = s'.shared.conditionals) (hq : q ≠ noState) (hx : (s'.threads t).state ≠ noState)
    (hown : ∀ c, p.threads[t]? = some c →
      AbstractCfg.Tracks c (p.minimisedThread t) (s'.threads t).state ((s'.threads t).phase = .after) q) : Follows p s' a' := by
  refine ⟨hm.idle, hlocks, hconds, fun t' c ht' => ?_, fun t' c ht' => ?_⟩
  · by_cases heq : t' = t
    · subst heq
      rw [hm.own]
      exact ⟨hq, hx⟩
    · rw [hm.other t' heq, hframe t' heq]
      exact h.active t' c ht'
  · by_cases heq : t' = t
    · subst heq
      rw [hm.own]
      exact hown c ht'
    · rw [hm.other t' heq, hframe t' heq]
      exact h.tracks t' c ht'

/-- **the automaton follows each step** -/
theorem acts_simulated (hf : Followable p) (hstep : Acts p.threads text t s w s') (h : Follows p s a) :
    ∃ r a', (preemptive p).automaton.Path a r a' ∧ untagged (Automaton.word r) = w ∧ Follows p s' a' := by
  have hframe : ∀ t' ≠ t, s'.threads t' = s.threads t' := fun t' ht' => hstep.frame ht'
  cases hstep with
  | @placed c op todo owner ht =>
    obtain ⟨hq, hx⟩ := h.active t c ht
    refine ⟨[], a, .nil a, rfl, h.other (.refl h.idle t) hframe h.locks h.conditionals hq ?_ fun c' ht' => ?_⟩
    · simpa using hx
    · simpa using h.tracks t c' ht'
  | @action c shared ht hphase _ hexec =>
    obtain ⟨hq, hx⟩ := h.active t c ht
    have htracks := h.tracks t c ht
    rw [hphase] at htracks
    cases ha : (c.getState (s.threads t).state).action with
    | none =>
      rw [ha, execAction, Option.some.injEq] at hexec
      subst hexec
      refine ⟨[], a, .nil a, rfl, h.other (.refl h.idle t) hframe h.locks h.conditionals hq ?_ fun c' ht' => ?_⟩
      · simpa using hx
      · obtain rfl : c = c' := Option.some.inj (ht.symm.trans ht')
        simpa using htracks.skip ha
    | some sigma =>
      rw [ha, execAction] at hexec
      split_ifs at hexec with hblocked
      rw [Option.some.injEq] at hexec
      have hfree : ConcurrentAutomaton.blocked s.shared sigma = false := by simpa using hblocked
      rw [ConcurrentAutomaton.applyOperation_eq hfree] at hexec
      obtain ⟨-, fuel, hmin⟩ := minimisedThread_eq ht
      obtain ⟨r, q, hp, hw, htr⟩ := AbstractCfg.Tracks.execute (hf.framed c (List.mem_of_getElem? ht)) hmin
        (hf.narrow t) htracks ha
      have hfree' : ∀ x ∈ untagged (Automaton.word r), ConcurrentAutomaton.blocked a x = false := by
        intro x hmem
        rw [hw, List.mem_singleton] at hmem
        subst hmem
        rw [ConcurrentAutomaton.blocked_congr h.locks h.conditionals]
        exact hfree
      obtain ⟨r', a', hp', hw', hm, hne⟩ := lift_path (ConcurrentAutomaton.plain_ofProgram p true false)
        (ConcurrentAutomaton.numbered_ofProgram p true false) rfl h.idle hp hq (by rw [hw]; rfl) hfree'
      rw [hw] at hm
      refine ⟨r', a', hp', by rw [hw', hw]; rfl, h.other hm hframe ?_ ?_ hne ?_ fun c' ht' => ?_⟩
      · rw [hm.locks, ← hexec, h.locks]
        rfl
      · rw [hm.conditionals, ← hexec, h.conditionals]
        rfl
      · simpa using hx
      · obtain rfl : c = c' := Option.some.inj (ht.symm.trans ht')
        simpa using htr
  | @move c v ht hphase _ hedge =>
    obtain ⟨hq, hx⟩ := h.active t c ht
    have htracks := h.tracks t c ht
    rw [hphase] at htracks
    refine ⟨[], a, .nil a, rfl, h.other (.refl h.idle t) hframe h.locks h.conditionals hq ?_ fun c' ht' => ?_⟩
    · have hv := hedge.2.1
      simp only [stateIds, List.mem_range'_1] at hv
      simp only [Function.update_self]
      show v ≠ 0
      omega
    · obtain rfl : c = c' := Option.some.inj (ht.symm.trans ht')
      simpa using htracks.move (hf.framed c (List.mem_of_getElem? ht)) hx hedge.2.2

/-- every thread has executed the action of a final state -/
def Ended (p : Program) (s : Config) : Prop := ∀ t (c : AbstractCfg), p.threads[t]? = some c →
  (s.threads t).phase = .after ∧ (c.getState (s.threads t).state).final = true

/-- one thread after the other takes its last tag -/
theorem finish_threads (hf : Followable p) (h : Follows p s a) (hend : Ended p s) :
    ∀ k ≤ p.threads.length, ∃ r a', (preemptive p).automaton.Path a r a' ∧ untagged (Automaton.word r) = [] ∧
      (preemptive p).Idle a' ∧ (∀ t < k, ((preemptive p).thread t).intIsFinalState (a'.pos t) = true) ∧
        ∀ t, k ≤ t → a'.pos t = a.pos t
  | 0, _ => ⟨[], a, .nil a, rfl, h.idle, fun _ ht => absurd ht (Nat.not_lt_zero _), fun _ _ => rfl⟩
  | k + 1, hk => by
    obtain ⟨r, b, hp, hw, hidle, hfinal, hrest⟩ := finish_threads hf h hend k (by omega)
    have ht : p.threads[k]? = some p.threads[k] := List.getElem?_eq_getElem (by omega)
    obtain ⟨hq, hx⟩ := h.active k _ ht
    obtain ⟨hphase, hlast⟩ := hend k _ ht
    have htracks := h.tracks k _ ht
    rw [hphase] at htracks
    obtain ⟨-, fuel, hmin⟩ := minimisedThread_eq ht
    obtain ⟨r1, q, hp1, hw1, hq1⟩ := AbstractCfg.Tracks.finish (hf.framed _ (List.getElem_mem _)) hmin
      (hf.narrow k) htracks hx hlast
    rw [← hrest k le_rfl] at hp1 hq
    obtain ⟨r', b', hp', hw', hm, -⟩ := lift_path (ConcurrentAutomaton.plain_ofProgram p true false)
      (ConcurrentAutomaton.numbered_ofProgram p true false) rfl hidle hp1 hq (by simp [hw1]) (by simp [hw1])
    refine ⟨r ++ r', b', hp.append hp', ?_, hm.idle, fun t hlt => ?_, fun t hle => ?_⟩
    · rw [Automaton.word_append, untagged_append, hw, hw', hw1, List.append_nil]
    · rcases Nat.lt_succ_iff_lt_or_eq.1 hlt with hlt | rfl
      · rw [hm.other t (by omega)]
        exact hfinal t hlt
      · rw [hm.own]
        exact hq1
    · rw [hm.other t (by omega), hrest t (by omega)]

/-- **The preemptive automaton runs whatever the instrumented program does.** The actions of an execution are the word
of a run, the tags left out, and those of an execution that has ended are the word of an accepted run. -/
theorem instrumented_runs (hf : Followable p) (hx : Exec (AnyActs p.threads text) (initialConfig text) w s) :
    (∃ v, (preemptive p).automaton.Runs v ∧ untagged v = w) ∧
      (Ended p s → ∃ v, (preemptive p).automaton.Accepts v ∧ untagged v = w) := by
  have hstep : ∀ s w s' a, AnyActs p.threads text s w s' → Follows p s a →
      ∃ r a', (preemptive p).automaton.Path a r a' ∧ (Automaton.word r).filter (fun sy => sy.operation != .tag) = w ∧
        Follows p s' a' :=
    fun s w s' a ⟨t, hacts⟩ h => acts_simulated hf hacts h
  obtain ⟨r, a, hp, hw, hfollows⟩ := Exec.simulate hstep hx (follows_start p)
  refine ⟨⟨_, ⟨r, a, ConcurrentAutomaton.run_iff.2 hp, rfl⟩, hw⟩, fun hend => ?_⟩
  obtain ⟨r', a', hp', hw', hidle, hfinal, -⟩ := finish_threads hf hfollows hend _ le_rfl
  refine ⟨_, ⟨r ++ r', a', ConcurrentAutomaton.run_iff.2 (hp.append hp'), ?_, rfl⟩, ?_⟩
  · refine List.all_eq_true.2 fun t ht => ?_
    have hlt : t < p.threads.length := by
      have := List.mem_range.1 ht
      rw [hidle.length] at this
      exact this.trans_eq p.length_minimised
    simp [hfinal t hlt]
  · rw [Automaton.word_append, untagged_append, hw', List.append_nil]
    exact hw

/-! ## The restricted automaton -/

theorem pair_framed : ∀ c ∈ pairProgram.threads, c.Framed := by
  have hall : ∀ c ∈ pairProgram.threads, ∀ u < c.states.length, u ≠ noState →
      ((c.getState u).final = true → (c.getState u).action = none ∧ c.getSuccessors u = []) ∧
        ∀ a ∈ (c.getState u).action, a.loc = ⟨c.threadId, u⟩ ∧ a.operation ≠ .tag := by decide
  have hstart : ∀ c ∈ pairProgram.threads, (c.getState 1).action = none ∧ (c.getState 1).final = false := by decide
  have hedges : ∀ c ∈ pairProgram.threads, ∀ es ∈ c.edges, ∀ e ∈ es, e.dst ≠ noState ∧ e.tag = none := by decide
  intro c hc
  exact AbstractCfg.framed_of_lt (hstart c hc) (hall c hc) (hedges c hc)

theorem pair_followable : Followable pairProgram := by
  have hall : ∀ m ∈ pairProgram.minimisedThreads, ∀ es ∈ m.edges, es.length ≤ 256 := by decide
  refine ⟨pair_framed, fun t => AbstractCfg.narrow_of_edges fun es hes => ?_⟩
  by_cases ht : t < pairProgram.minimisedThreads.length
  · rw [Program.minimisedThread, List.getD_eq_getElem _ _ ht] at hes
    exact hall _ (List.getElem_mem ht) es hes
  · rw [Program.minimisedThread, List.getD_eq_default _ _ (by omega), AbstractCfg.empty, List.mem_singleton] at hes
    simp [hes]

theorem pair_ended : ∃ s, Exec (AnyActs pairProgram.threads pairText) (initialConfig pairText)
    [pairX 0, pairY 0, pairX 1, pairY 1] s ∧ Ended pairProgram s := by
  obtain ⟨s, hs, hlast⟩ := pair_exec
  have hfinal : ∀ c ∈ pairProgram.threads, (c.getState 6).final = true := by decide
  refine ⟨s, hs, fun t c ht => ?_⟩
  obtain ⟨hstate, hphase⟩ := hlast t (List.getElem?_eq_some_iff.1 ht).1
  rw [hstate]
  exact ⟨hphase, hfinal c (List.mem_of_getElem? ht)⟩

theorem pair_runs : ∃ s, Exec (AnyActs pairProgram.threads pairText) (initialConfig pairText)
    [pairX 0, pairY 0, pairX 1, pairY 1] s ∧ Ended pairProgram s ∧
      ∃ v, (preemptive pairProgram).automaton.Accepts v ∧ untagged v = [pairX 0, pairY 0, pairX 1, pairY 1] := by
  obtain ⟨s, hs, hend⟩ := pair_ended
  exact ⟨s, hs, hend, (instrumented_runs pair_followable hs).2 hend⟩

end PlaceLocks

end Liss
