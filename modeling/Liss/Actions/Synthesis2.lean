/-
`actions/synthesis2.cpp`: `synth_loop`, the loop that tests inclusion, infers locks from the counter-example and forbids
what they exclude.

The inclusion test looks at the preemptive automaton with everything that is forbidden so far. The loop ends when
inclusion holds, when no answer is found up to the maximum bound, or when no locks are inferred any more; the last is
reported as a success as well. Debug output and statistics are left out. What the code does not survive gives `none`: a
list of epsilon symbols only in `remove_preemption`, a conflict whose number is out of range, and an enumeration without
end.

- `newLocks_inferred`: the locks of a round are made of preemption-free sections of the counter-example;
- `LoopInv`: the automaton watches the locks found so far;
- `synthFrom_spec`: where the loop ends with inclusion, the runs that respect the locks have equivalent sequential ones;
  where it has found no more locks, some run that respects them has none.
-/
import Liss.Abstraction.Accepted
import Liss.Actions.InclusionTest
import Liss.Synthesis.ProcessTrace
import Liss.Synthesis.RemoveDuplicates
import Liss.Synthesis.RemovePreemption
import Liss.Synthesis.Synchronisation

namespace Liss

namespace Synthesis

open ConcurrentAutomaton InclusionTest CompressedAutomaton

/-! ## The source -/

/-- the locks for a counter-example. Its symbols are pointers from the symbol table, so equal pointers are equal
symbols. -/
def newLocks (z3 : Oracle Assignment) (p : Program) (fuel : ℕ) (trace : List Symbol) (lockSymbols : LockSymbols) :
    Option LockSymbols := do
  let badCond ← processTrace z3 p.identifiers p.threads.length trace fuel lockSymbols
  let newLockSymbols ← removePreemption (locksToSymbols (generateSync (negDnf badCond)) trace)
  some (removeDuplicates id newLockSymbols)

/-- how `synth_loop` ends -/
inductive Outcome where
  /-- it returns false -/
  | noAnswer
  /-- it returns true -/
  | noMoreLocks (lockSymbols : LockSymbols)
  /-- it returns true -/
  | successful (lockSymbols : LockSymbols)
deriving DecidableEq, Repr

/-- the loop of `synth_loop` -/
def synthFrom (limi : Limi) (maxBound : ℕ) (z3 : Oracle Assignment) (p : Program) (fuel : ℕ) :
    ℕ → CompressedAutomaton Symbol → ConcurrentAutomaton → LockSymbols → Option Outcome
  | 0, _, _, _ => none
  | rounds + 1, sequential, concurrent, lockSymbols =>
    match testInclusion limi maxBound sequential concurrent with
    | (.outOfTable, _) | (.rangeError, _) => none
    | (.boundReached, _) => some .noAnswer
    | (.found result, sequential) =>
      if result.included then some (.successful lockSymbols)
      else
        match newLocks z3 p fuel result.counterExample lockSymbols with
        | none => none
        | some new =>
          if new.isEmpty then some (.noMoreLocks lockSymbols)
          else synthFrom limi maxBound z3 p fuel rounds sequential (concurrent.addForbiddenTraces new) (lockSymbols ++ new)

/-- `synth_loop` -/
def synthLoop (limi : Limi) (maxBound : ℕ) (z3 : Oracle Assignment) (p : Program) (fuel : ℕ) : Option Outcome :=
  (compressed limi (.ofProgram p false false) fuel).bind fun sequential =>
    synthFrom limi maxBound z3 p fuel fuel sequential (.ofProgram p true false) []

/-! ## The locks of a round -/

/-- locks as the loop collects them: no clause is empty, a lock has two lists or more, and a list is a non-empty part
of one thread without preemption points -/
structure Inferred (locks : LockSymbols) : Prop where
  clause : ∀ cl ∈ locks, cl ≠ []
  lists : ∀ cl ∈ locks, ∀ lock ∈ cl, 2 ≤ lock.length
  thread : WellFormedClauses locks
  free : ∀ cl ∈ locks, ∀ lock ∈ cl, ∀ list ∈ lock, ∀ s ∈ list, s.isPreemptionPoint = false

theorem Inferred.append {locks new : LockSymbols} (h : Inferred locks) (h' : Inferred new) : Inferred (locks ++ new) where
  clause cl hcl := (List.mem_append.1 hcl).elim (h.clause cl) (h'.clause cl)
  lists cl hcl := (List.mem_append.1 hcl).elim (h.lists cl) (h'.lists cl)
  thread cl hcl := (List.mem_append.1 hcl).elim (h.thread cl) (h'.thread cl)
  free cl hcl := (List.mem_append.1 hcl).elim (h.free cl) (h'.free cl)

theorem strip_part (list : LockList) : strip list <:+: list :=
  ((List.rdropWhile_prefix _ _).isInfix).trans (List.dropWhile_suffix _).isInfix

/-- a segment is a part of a list -/
theorem mem_segments_part {lock : LockLists} {list : LockList} (h : list ∈ segments lock) :
    list ≠ [] ∧ (∃ it ∈ lock, list <:+: it) ∧ ∀ s ∈ list, s.isPreemptionPoint = false := by
  obtain ⟨hlist, hne⟩ := List.mem_filter.1 h
  obtain ⟨run, hrun, rfl⟩ := List.mem_map.1 hlist
  obtain ⟨it, hit, hrun⟩ := List.mem_flatMap.1 hrun
  obtain ⟨-, hpart, hfree⟩ := mem_runs hrun
  exact ⟨by simpa using hne, ⟨it, hit, (strip_part run).trans hpart⟩,
    fun s hs => hfree s ((strip_part run).subset hs)⟩

/-- a section has the symbols of one thread -/
theorem threadId_sectionSymbols {trace : List Symbol} {x : LockLocation} {s : Symbol}
    (hs : s ∈ sectionSymbols trace x) : s.threadId = x.start.threadId := by
  obtain ⟨l, hl, rfl⟩ := List.mem_map.1 hs
  have := (List.mem_filter.1 hl).2
  simp only [Bool.and_eq_true, decide_eq_true_eq] at this
  exact this.2

theorem inferred_segmented (locks : Cnf Lock) (trace : List Symbol) :
    Inferred (segmented (locksToSymbols locks trace)) := by
  have hclause : ∀ cl ∈ segmented (locksToSymbols locks trace), cl ≠ [] ∧ ∀ lock ∈ cl, 2 ≤ lock.length ∧
      ∃ sections : List LockLocation, lock = segments (sections.map (sectionSymbols trace)) := by
    intro cl hcl
    obtain ⟨hcl, hne⟩ := List.mem_filter.1 hcl
    obtain ⟨d, hd, rfl⟩ := List.mem_map.1 hcl
    obtain ⟨ls, -, rfl⟩ := List.mem_map.1 hd
    refine ⟨by simpa using hne, fun lock hlock => ?_⟩
    obtain ⟨hlock, hlen⟩ := List.mem_filter.1 hlock
    obtain ⟨it, hit, rfl⟩ := List.mem_map.1 hlock
    obtain ⟨l, -, rfl⟩ := List.mem_map.1 hit
    exact ⟨by simpa using hlen, l.locations, rfl⟩
  refine ⟨fun cl hcl => (hclause cl hcl).1, fun cl hcl lock hlock => ((hclause cl hcl).2 lock hlock).1,
    fun cl hcl lock hlock list hlist => ?_, fun cl hcl lock hlock list hlist => ?_⟩
  · obtain ⟨-, sections, rfl⟩ := (hclause cl hcl).2 lock hlock
    obtain ⟨hne, ⟨it, hit, hpart⟩, -⟩ := mem_segments_part hlist
    obtain ⟨x, -, rfl⟩ := List.mem_map.1 hit
    refine ⟨hne, fun s hs s' hs' => ?_⟩
    rw [threadId_sectionSymbols (hpart.subset hs), threadId_sectionSymbols (hpart.subset hs')]
  · obtain ⟨-, sections, rfl⟩ := (hclause cl hcl).2 lock hlock
    exact (mem_segments_part hlist).2.2

theorem Inferred.subset {locks new : LockSymbols} (h : Inferred locks) (hsub : ∀ cl ∈ new, cl ∈ locks) : Inferred new where
  clause cl hcl := h.clause cl (hsub cl hcl)
  lists cl hcl := h.lists cl (hsub cl hcl)
  thread cl hcl := h.thread cl (hsub cl hcl)
  free cl hcl := h.free cl (hsub cl hcl)

variable {z3 : Oracle Assignment} {p : Program} {fuel : ℕ} {trace : List Symbol} {locks new : LockSymbols}

/-- **The locks of a round.** -/
theorem newLocks_inferred (h : newLocks z3 p fuel trace locks = some new) : Inferred new := by
  simp only [newLocks, Option.bind_eq_bind, Option.bind_eq_some_iff, Option.some.injEq] at h
  obtain ⟨badCond, -, segments, hsegments, rfl⟩ := h
  rw [removePreemption_eq] at hsegments
  split_ifs at hsegments
  rw [Option.some.injEq] at hsegments
  subst hsegments
  exact (inferred_segmented _ trace).subset fun cl hcl => (prune_sublist _).subset hcl

/-! ## The loop -/

/-- what holds at the start of every round -/
structure LoopInv (limi : Limi) (p : Program) (sequential : CompressedAutomaton Symbol)
    (concurrent : ConcurrentAutomaton) (locks : LockSymbols) : Prop where
  represents : Represents sequential (limi.collapse (ofProgram p false false).automaton)
  symbols : ∀ x ∈ sequential.symbolTranslation, x ∈ programSymbols p
  watches : ∃ calls : List LockSymbols, concurrent = restricted p false calls ∧ calls.flatten = locks
  inferred : Inferred locks

/-- the numbers of the conflicts are in range -/
def InRange (locks : LockSymbols) : Prop := (locks.map conflictCount).sum ≤ maxPayload + 1

/-- a complete preemptive run that respects all locks -/
def Respects (p : Program) (locks : LockSymbols) (w : List Symbol) : Prop :=
  (ofProgram p true false).automaton.Accepts w ∧ ∀ cl ∈ locks, ¬ViolatesClause cl (events w)

/-- a complete run without preemption that is the same up to the order of independent symbols -/
def Sequential (p : Program) (w : List Symbol) : Prop := HasEquivalent (ofProgram p false false).automaton w

/-- what the end of the loop says about the program -/
def Outcome.Meaning (p : Program) : Outcome → Prop
  | .noAnswer => True
  | .noMoreLocks locks => Inferred locks ∧ (InRange locks → ∃ w, Respects p locks w ∧ ¬Sequential p w)
  | .successful locks => Inferred locks ∧ (InRange locks → ∀ w, Respects p locks w → Sequential p w)

variable {limi : Limi} {sequential : CompressedAutomaton Symbol} {concurrent : ConcurrentAutomaton}

/-- the automaton that watches locks accepts the runs that respect them -/
theorem accepts_iff_respects (p : Program) (calls : List LockSymbols) (hlocks : Inferred calls.flatten)
    (hrange : InRange calls.flatten) (w : List Symbol) :
    (restricted p false calls).automaton.Accepts w ↔ Respects p calls.flatten w := by
  have hsize : (restricted p false calls).conflicts.length ≤ maxPayload + 1 :=
    (length_conflicts_watching p true false calls).trans_le hrange
  rw [accepts_restricted p false calls hlocks.thread hsize w, Respects]
  exact and_congr_right fun _ => forall₂_congr fun cl hcl => by simp [hlocks.clause cl hcl]

theorem LoopInv.accepts_iff (h : LoopInv limi p sequential concurrent locks) (hrange : InRange locks) (w : List Symbol) :
    concurrent.automaton.Accepts w ↔ Respects p locks w := by
  obtain ⟨calls, rfl, rfl⟩ := h.watches
  exact accepts_iff_respects p calls h.inferred hrange w

theorem LoopInv.offered (h : LoopInv limi p sequential concurrent locks) (s : ConcurrentState) :
    ∀ x ∈ concurrent.automaton.next s, x ∈ programSymbols p := by
  obtain ⟨calls, rfl, -⟩ := h.watches
  exact next_subset (installed_addForbiddenTraces p true false calls).2.2.1 s

/-- new locks are watched from the next round on -/
theorem LoopInv.add (h : LoopInv limi p sequential concurrent locks) {sequential' : CompressedAutomaton Symbol}
    (hrep : Represents sequential' (limi.collapse (ofProgram p false false).automaton))
    (hsymbols : ∀ x ∈ sequential'.symbolTranslation, x ∈ programSymbols p) (hnew : Inferred new) :
    LoopInv limi p sequential' (concurrent.addForbiddenTraces new) (locks ++ new) := by
  obtain ⟨calls, rfl, rfl⟩ := h.watches
  refine ⟨hrep, hsymbols, ⟨calls ++ [new], ?_, by simp⟩, h.inferred.append hnew⟩
  rw [restricted, restricted, List.foldl_append]
  rfl

/-- **The loop.** -/
theorem synthFrom_spec (hlimi : limi.Sound) (hcollapse : limi.Collapses (ofProgram p false false).automaton)
    {maxBound : ℕ} (hsize : (programSymbols p).length ≤ 2 ^ 16) {rounds : ℕ} (h : LoopInv limi p sequential concurrent locks)
    {outcome : Outcome} (hrun : synthFrom limi maxBound z3 p fuel rounds sequential concurrent locks = some outcome) :
    outcome.Meaning p := by
  induction rounds generalizing sequential concurrent locks with
  | zero => simp [synthFrom] at hrun
  | succ rounds ih =>
    obtain ⟨⟨given, sequential'⟩, htest⟩ : ∃ t, testInclusion limi maxBound sequential concurrent = t := ⟨_, rfl⟩
    obtain ⟨hrep, hsymbols, hgiven⟩ := testFrom_spec hlimi hsize h.offered h.represents h.symbols htest
    rw [synthFrom, htest] at hrun
    rcases hgiven with ⟨rfl, -⟩ | rfl | ⟨result, rfl, hdefinite⟩
    · simp at hrun
    · obtain rfl := Option.some.inj hrun
      trivial
    · dsimp only at hrun
      rw [definite_collapse hcollapse, Definite] at hdefinite
      split_ifs at hrun hdefinite with hincluded
      · obtain rfl := Option.some.inj hrun
        exact ⟨h.inferred, fun hrange w hw => hdefinite w ((h.accepts_iff hrange w).2 hw)⟩
      · obtain ⟨w, hacc, hno, -⟩ := hdefinite
        cases hnew : newLocks z3 p fuel result.counterExample locks with
        | none => simp [hnew] at hrun
        | some new =>
          simp only [hnew] at hrun
          split_ifs at hrun
          · obtain rfl := Option.some.inj hrun
            exact ⟨h.inferred, fun hrange => ⟨w, (h.accepts_iff hrange w).1 hacc, hno⟩⟩
          · exact ih (h.add hrep hsymbols (newLocks_inferred hnew)) hrun

/-- **Synthesis.** -/
theorem synthLoop_spec (hlimi : limi.Sound) (hcollapse : limi.Collapses (ofProgram p false false).automaton)
    {maxBound : ℕ} (hstates : (Set.image ConcurrentState.eraseReward
      {s | (ofProgram p false false).automaton.Reachable s}).encard ≤ (2 ^ 32 : ℕ))
    (hsize : (programSymbols p).length ≤ 2 ^ 16) :
    ∀ outcome, synthLoop limi maxBound z3 p fuel = some outcome → outcome.Meaning p := by
  intro outcome hout
  obtain ⟨sequential, hsequential, hout⟩ := Option.bind_eq_some_iff.1 hout
  obtain ⟨hrep, hsymbols⟩ := (compressed_represents rfl hcollapse hstates hsize).2 fuel sequential hsequential
  refine synthFrom_spec hlimi hcollapse hsize ⟨hrep, hsymbols, ⟨[], rfl, rfl⟩, ?_⟩ hout
  exact ⟨by simp, by simp, fun cl hcl => absurd hcl List.not_mem_nil, by simp⟩

/-! ### A program that needs no locks -/

/-- both orders of `x=2` and `y=1` are the same -/
theorem locked_sequential {w : List Symbol} (h : (ofProgram lockedProgram true false).automaton.Accepts w) :
    Sequential lockedProgram w := by
  have hend : ∀ s ∈ (ofProgram lockedProgram true false).automaton.initial,
      (ofProgram lockedProgram true false).automaton.pathsOf 4 s = [] := by decide
  have hall : ∀ w ∈ (ofProgram lockedProgram true false).automaton.wordsBelow 4,
      w = [write1, write2, writeOther] ∨ w = [write1, writeOther, write2] ∨ w = [writeOther, write1, write2] := by
    decide
  have hfirst : (ofProgram lockedProgram false false).automaton.Accepts [write1, write2, writeOther] :=
    Automaton.accepts_of_wordsBelow (n := 4) (by decide)
  have hlast : (ofProgram lockedProgram false false).automaton.Accepts [writeOther, write1, write2] :=
    Automaton.accepts_of_wordsBelow (n := 4) (by decide)
  rcases hall w (Automaton.mem_wordsBelow hend h) with rfl | rfl | rfl
  · exact ⟨_, hfirst, .refl _⟩
  · exact ⟨_, hfirst, .single (.intro [write1] [] (by decide : writeOther.independent write2 = true))⟩
  · exact ⟨_, hlast, .refl _⟩

/-- the loop ends in its first round -/
theorem locked_synthesised : ∃ fuel,
    synthLoop unbounded 1 (Oracle.ideal Assignment) lockedProgram fuel = some (.successful []) ∧
      Outcome.Meaning lockedProgram (.successful []) := by
  have hsize : (programSymbols lockedProgram).length ≤ 2 ^ 16 := by
    rw [locked_symbols]
    norm_num
  obtain ⟨⟨bound, htotal⟩, hrep⟩ := compressed_represents (p := lockedProgram) rfl locked_collapses locked_states hsize
  obtain ⟨sequential, hsequential⟩ := Option.isSome_iff_exists.1 (htotal (bound + 1) (Nat.le_succ bound))
  obtain ⟨hseq, hsub⟩ := hrep _ _ hsequential
  have hnone : ¬∃ r, Counter (ofProgram lockedProgram true false) sequential r := by
    rintro ⟨r, B, s, hB, hr, hf, hno⟩
    have hle := (hseq.nodup.subperm hsub).length_le.trans hsize
    have hlocked := (hasEquivalent_collapse locked_collapses _).2 (locked_sequential ⟨r, s, hr, hf, rfl⟩)
    exact hno (hlocked.congr fun v hv => hseq.accepts_congr hB hle hv)
  have hout : synthLoop unbounded 1 (Oracle.ideal Assignment) lockedProgram (bound + 1) = some (.successful []) := by
    rw [synthLoop, hsequential, Option.bind_some, synthFrom, testInclusion, testFrom]
    simp only [unbounded, dif_neg hnone, wrapperCalls, answer, translateResult]
    rfl
  exact ⟨bound + 1, hout, synthLoop_spec unbounded_sound locked_collapses locked_states hsize _ hout⟩

end Synthesis

end Liss
