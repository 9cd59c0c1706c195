/-
The constraint `locks` of `prepare_trace` on the runs of the preemptive automaton.

- `run_locksPass`: along a run no lock is taken that is taken already;
- `LocksExact`: no empty list is read, `locks` holds for an ordering iff its word does not take a lock twice, and it
  holds for the trace itself (the sanity check "Original trace not valid concurrent trace");
- `locksExact_iff`: when this is so.
-/
import Liss.Synthesis.GoodOrders
import Liss.Synthesis.LockMismatch

namespace Liss.Synthesis

open ConcurrentAutomaton

variable {ids : Identifiers} {threads : ℕ} {w : List Symbol}

/-! ## Runs -/

theorem replays_of_path {a : ConcurrentAutomaton} (hc : a.concurrent = true) {s s' : ConcurrentState}
    {r : List (Trans ConcurrentState Symbol)} (h : a.automaton.Path s r s') (hcur : s.current = none) :
    replays lockEffect lockPasses s.locks (Automaton.word r) = true := by
  induction h with
  | nil s => rfl
  | @cons x r u hx _ ih =>
    obtain ⟨he, hdst⟩ := step_preemptive hc hx hcur
    have hlocks : x.dst.locks = lockEffect x.sym x.src.locks := by
      obtain ⟨m, -, p, -, hd | ⟨-, -, hd⟩⟩ := he.dst
      · rw [hd]
        rfl
      · rw [hd]
        rfl
    have hfree := he.free
    rw [blocked_eq_passes, Bool.not_eq_false', Bool.and_eq_true] at hfree
    rw [Automaton.word, List.map_cons, replays, Bool.and_eq_true, ← hlocks]
    exact ⟨hfree.2, ih hdst⟩

/-- what is known of the words of the preemptive automaton -/
theorem run_locksPass {p : Program} {deadlock : Bool} (h : (ofProgram p true deadlock).automaton.Runs w) :
    OfThreads p.noThreads w ∧ Known p.identifiers w ∧ locksPass w = true := by
  obtain ⟨r, s, hrun, rfl⟩ := h
  have ha := numbered_ofProgram p true deadlock
  have hmoves := isMove_of_run ha rfl hrun
  have hthreads : (ofProgram p true deadlock).threads.length = p.noThreads := p.length_minimised
  have hsym : ∀ x ∈ Automaton.word r, ∃ m ∈ r.map moveOf, m.sym = x := by
    intro x hx
    obtain ⟨t, ht, rfl⟩ := List.mem_map.1 hx
    exact ⟨moveOf t, List.mem_map_of_mem ht, rfl⟩
  refine ⟨fun x hx => ?_, fun x hx => ?_, replays_of_path rfl (run_iff.1 hrun) rfl⟩
  · obtain ⟨m, hm, rfl⟩ := hsym x hx
    rw [← hthreads]
    exact (hmoves m hm).lt
  · obtain ⟨m, hm, rfl⟩ := hsym x hx
    exact ((ha _).1.nextSymbols (hmoves m hm).offered).2

/-! ## The constraint -/

/-- **`locks` is exact.** -/
def LocksExact (ids : Identifiers) (threads : ℕ) (w : List Symbol) : Prop :=
  ∃ lk, locks ids threads w = some lk ∧ (∀ g, IsOrdering w g → (lk g = true ↔ locksPass (word w g) = true)) ∧
    lk (fun i => i) = true

/-- a lock that the program does not know is not taken -/
theorem lockPass_of_unused {v : ℕ} (h : ∀ s ∈ w, s.operation = .lock → s.var ≠ v) : lockPass v w = true := by
  rw [lockPass_iff]
  rintro pre s post rfl ⟨hop, hvar⟩
  exact absurd hvar (h s (by simp) hop)

theorem locksPass_known (hk : Known ids w) (g : Assignment) :
    locksPass (word w g) = true ↔ ∀ v < ids.noLocks, lockPass v (word w g) = true := by
  rw [locksPass_iff_lockPass]
  refine ⟨fun h v _ => h v, fun h v => ?_⟩
  rcases Nat.lt_or_ge v ids.noLocks with hv | hv
  · exact h v hv
  · apply lockPass_of_unused
    intro s hs hop
    have hknown := hk s (mem_word.1 hs)
    simp only [Symbol.known, hop, decide_eq_true_eq] at hknown
    omega

theorem locksExact_of_lockExact (hk : Known ids w) (hpass : locksPass w = true)
    (h : ∀ v < ids.noLocks, LockExact threads w v) : LocksExact ids threads w := by
  obtain ⟨lk, hlk⟩ : ∃ lk, locks ids threads w = some lk := by
    apply Option.isSome_iff_exists.1
    rw [locks, Option.isSome_map]
    apply mapM_isSome
    intro v hv
    obtain ⟨prs, hprs, -⟩ := h v (List.mem_range.1 hv)
    rw [hprs]
    rfl
  have hexact : ∀ g, IsOrdering w g → (lk g = true ↔ locksPass (word w g) = true) := by
    intro g hg
    rw [locks_iff hlk, locksPass_known hk]
    apply forall₂_congr
    intro v hv
    obtain ⟨prs, hprs, hiff⟩ := h v hv
    rw [← hiff g hg]
    constructor
    · rintro ⟨prs', hprs', hexcl⟩
      rwa [Option.some.inj (hprs.symm.trans hprs')]
    · exact fun hexcl => ⟨prs, hprs, hexcl⟩
  refine ⟨lk, hlk, hexact, (hexact _ (isOrdering_position w)).2 ?_⟩
  rw [(word_position w).1]
  exact hpass

/-- all lock and unlock operations of the trace are on one lock -/
def UsesOnly (w : List Symbol) (v : ℕ) : Prop := ∀ s ∈ w, s.operation = .lock ∨ s.operation = .unlock → s.var = v

theorem UsesOnly.lockOps_nil {v v' : ℕ} (h : UsesOnly w v) (hne : v' ≠ v) (t : ℕ) : lockOps w t v' = [] := by
  apply List.filter_eq_nil_iff.2
  intro s hs hop
  simp only [isLockOp, Bool.and_eq_true, Bool.or_eq_true, beq_iff_eq] at hop
  exact hne (hop.1.2.symm.trans (h s hs hop.2))

/-- the program does not know the lock -/
theorem Known.lockOps_nil {v : ℕ} (h : Known ids w) (hv : ids.noLocks ≤ v) (t : ℕ) : lockOps w t v = [] := by
  apply List.filter_eq_nil_iff.2
  intro s hs hop
  have hknown := h s hs
  simp only [isLockOp, Bool.and_eq_true, Bool.or_eq_true, beq_iff_eq] at hop
  rcases hop.2 with hop' | hop'
  · simp only [Symbol.known, hop', decide_eq_true_eq] at hknown
    omega
  · simp only [Symbol.known, hop', decide_eq_true_eq] at hknown
    omega

theorem takesTurns_of_nil {v : ℕ} (h : ∀ t, lockOps w t v = []) : TakesTurns threads w v := by
  refine ⟨?_, fun t _ => ?_, Or.inr fun t _ => ?_⟩
  · have hnil : ((List.range threads).flatMap fun t => (lockOps w t v).map Symbol.operation) = [] :=
      List.flatMap_eq_nil_iff.2 fun t _ => by rw [h, List.map_nil]
    rw [hnil]
    simp
  · rw [h]
    exact List.isChain_nil
  · rw [h]
    trivial

/-- on a trace with one lock the whole constraint is that of the lock -/
theorem lockExact_of_locksExact {v : ℕ} (hw : OfThreads threads w) (hk : Known ids w) (hv : v < ids.noLocks)
    (honly : UsesOnly w v) (h : LocksExact ids threads w) : LockExact threads w v := by
  obtain ⟨lk, hlk, hexact, hself⟩ := h
  obtain ⟨prs, hprs, -⟩ := (locks_iff hlk _).1 hself v hv
  refine ⟨prs, hprs, fun g hg => ?_⟩
  have hothers : ∀ v' ≠ v, lockPass v' (word w g) = true := fun v' hne =>
    lockPass_of_unused fun s hs hop hvar => hne (hvar.symm.trans (honly s (mem_word.1 hs) (Or.inl hop)))
  have hiff := hexact g hg
  rw [locks_iff hlk, locksPass_known hk] at hiff
  constructor
  · intro hexcl
    refine hiff.1 (fun v' hv' => ?_) v hv
    by_cases hne : v' = v
    · exact ⟨prs, hne ▸ hprs, hexcl⟩
    · obtain ⟨prs', hprs', hiff'⟩ := lockExact_of_takesTurns hw (takesTurns_of_nil (honly.lockOps_nil hne))
      exact ⟨prs', hprs', (hiff' g hg).2 (hothers v' hne)⟩
  · intro hpass
    obtain ⟨prs', hprs', hexcl⟩ := hiff.2 (fun v' _ => by
      by_cases hne : v' = v
      · exact hne ▸ hpass
      · exact hothers v' hne) v hv
    rwa [Option.some.inj (hprs.symm.trans hprs')]

/-- **When `locks` is exact.** It is if every lock is taken in turn. For a single lock this is needed as well, so that
it is exact on a trace with one lock iff that lock is taken in turn. -/
theorem locksExact_iff (p : Program) (deadlock : Bool) (hrun : (ofProgram p true deadlock).automaton.Runs w) :
    ((∀ v < p.identifiers.noLocks, TakesTurns p.noThreads w v) → LocksExact p.identifiers p.noThreads w) ∧
      (∀ v, LockExact p.noThreads w v ↔ TakesTurns p.noThreads w v) ∧
      ∀ v, UsesOnly w v → (LocksExact p.identifiers p.noThreads w ↔ TakesTurns p.noThreads w v) := by
  obtain ⟨hw, hk, hpass⟩ := run_locksPass hrun
  have hlock : ∀ v, LockExact p.noThreads w v ↔ TakesTurns p.noThreads w v := fun v =>
    lockExact_iff hw (locksPass_iff_lockPass.1 hpass v)
  have henough : (∀ v < p.identifiers.noLocks, TakesTurns p.noThreads w v) →
      LocksExact p.identifiers p.noThreads w := fun h =>
    locksExact_of_lockExact hk hpass fun v hv => (hlock v).2 (h v hv)
  have hunused : ∀ v v', UsesOnly w v → v' ≠ v → TakesTurns p.noThreads w v' := fun v v' honly hne =>
    takesTurns_of_nil (honly.lockOps_nil hne)
  refine ⟨henough, hlock, fun v honly => ⟨fun h => ?_, fun h => henough fun v' _ => ?_⟩⟩
  · rcases Nat.lt_or_ge v p.identifiers.noLocks with hv | hv
    · exact (hlock v).1 (lockExact_of_locksExact hw hk hv honly h)
    · exact takesTurns_of_nil (hk.lockOps_nil hv)
  · by_cases hne : v' = v
    · exact hne ▸ h
    · exact hunused v v' honly hne

theorem locksExact_sections : LocksExact sections.identifiers 2 sectionsWord := by
  have hruns : (ofProgram sections true false).automaton.Runs sectionsWord := by
    obtain ⟨r, s, hrun, -, hword⟩ := sectionsWord_accepts
    exact ⟨r, s, hrun, hword⟩
  refine (locksExact_iff sections false hruns).1 fun v hv => ?_
  obtain rfl : v = 0 := Nat.lt_one_iff.1 hv
  refine ⟨by decide, ?_, Or.inr (by decide)⟩
  unfold NeverTwice
  decide

/-! ## Two locks and an unlock -/

/-- `lock(l); lock(l);` and `unlock(l);` -/
def lockTwice : Program :=
  Program.twoThreads ⟨0, 1, 0⟩ (Program.straight 0 [(.lock, 0), (.lock, 0)]) (Program.straight 1 [(.unlock, 0)]) 40
    (by decide) (by decide) (Program.straight_wellFormed (by simp [Symbol.known]))
    (Program.straight_wellFormed (by simp [Symbol.known]))

/-- the second thread unlocks between the locks of the first -/
def lockTwiceWord : List Symbol :=
  [{ operation := .lock, loc := ⟨0, 3⟩ }, { operation := .unlock, loc := ⟨1, 3⟩ },
    { operation := .lock, loc := ⟨0, 4⟩ }]

theorem runs_of_trace {a : ConcurrentAutomaton} (h : (a.automaton.trace a.startState w).isSome = true) :
    a.automaton.Runs w := by
  obtain ⟨⟨r, s⟩, htr⟩ := Option.isSome_iff_exists.1 h
  exact ⟨r, s, run_of_trace htr, (Automaton.path_of_trace htr).2⟩

/-- the unlock is entered at the second lock, so that the section of the first one lasts until the end; and the unlock
alone reads an empty list -/
theorem not_locksExact :
    ((ofProgram lockTwice true false).automaton.Runs lockTwiceWord ∧
      ¬LocksExact lockTwice.identifiers lockTwice.noThreads lockTwiceWord) ∧
    (ofProgram lockTwice true false).automaton.Runs [{ operation := .unlock, loc := ⟨1, 3⟩ }] ∧
      locks lockTwice.identifiers lockTwice.noThreads [{ operation := .unlock, loc := ⟨1, 3⟩ }] = none := by
  refine ⟨⟨runs_of_trace (by decide), ?_⟩, runs_of_trace (by decide), ?_⟩
  · rintro ⟨lk, hlk, -, hself⟩
    have hno : ∀ e ∈ locks lockTwice.identifiers lockTwice.noThreads lockTwiceWord, e (fun i => i) = false := by decide
    rw [hno lk hlk] at hself
    exact absurd hself (by simp)
  · exact Option.isNone_iff_eq_none.1 (by decide)

end Liss.Synthesis
