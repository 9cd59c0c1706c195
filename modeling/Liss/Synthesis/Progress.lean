/-
Progress of a synthesis round: the locks inferred from a clause forbid the counter-example they were inferred from.

At the original positions all constraints of the clause are false, so the two sections of each lock overlap
(`lock_overlap`), and one of them has a step of the other thread between two of its steps: the lock is violated.

- `findLock_violated`: each lock of the clause is violated in the trace;
- `progress`: after `add_forbidden_traces` the word is no run any more, unless the number of the new conflicts, cut to
  16 bits, is that of an old one;
- `aliased_run`: the word stays a run when it is.
-/
import Liss.Abstraction.Restricted
import Liss.Synthesis.Synchronisation
import Liss.Synthesis.TraceHelpers

namespace Liss.Synthesis

open ConcurrentAutomaton

variable {w : List Symbol}

/-! ## The locks are violated -/

/-- the counter-example: the run without its tags -/
def traceOf (run : List Symbol) : List Symbol := run.filter fun s => s.operation != .tag

theorem isEvent_of_mem_traceOf {run : List Symbol} {s : Symbol} (h : s ∈ traceOf run) (he : s.isRealEpsilon = false) :
    isEvent s = true := by
  have := (List.mem_filter.1 h).2
  simp only [bne_iff_ne, ne_eq] at this
  simp [isEvent, he, this]

/-- the monitor sees the same events in the run and in the counter-example -/
theorem events_traceOf (run : List Symbol) : events (traceOf run) = events run := by
  rw [events, traceOf, List.filter_filter]
  apply List.filter_congr
  intro s _
  cases h : s.operation <;> simp [isEvent, h]

theorem mem_sectionSymbols {x : LockLocation} {s : Symbol} : s ∈ sectionSymbols w x ↔
    ∃ l ∈ splitTrace w, x.start.position ≤ l.position ∧ l.position ≤ x.fin.position ∧ l.threadId = x.start.threadId ∧
      l.symbol = s := by
  simp [sectionSymbols, TraceLocation.instructionId, and_assoc]

/-- steps of a thread in a row that are in a section are neighbours in its list -/
theorem sectionSymbols_pair {x : LockLocation} {l l' : TraceLocation}
    (h : [l, l'] <:+: threadedTrace w x.start.threadId) (hl : x.start.position ≤ l.position)
    (hl' : l'.position ≤ x.fin.position) (hlt : l.position ≤ l'.position) :
    [l.symbol, l'.symbol] <:+: sectionSymbols w x := by
  obtain ⟨pre, mid, post, heq, ht, ht', hmid⟩ := pair_infix_filter.1 h
  refine List.IsInfix.map TraceLocation.symbol (?_ : [l, l'] <:+: _)
  refine pair_infix_filter.2 ⟨pre, mid, post, heq, ?_, ?_, fun s hs => ?_⟩
  · simp only [TraceLocation.instructionId, Bool.and_eq_true, decide_eq_true_eq] at ht ⊢
    exact ⟨⟨hl, by omega⟩, ht⟩
  · simp only [TraceLocation.instructionId, Bool.and_eq_true, decide_eq_true_eq] at ht' ⊢
    exact ⟨⟨by omega, hl'⟩, ht'⟩
  · have := hmid s hs
    simp only [decide_eq_false_iff_not] at this
    simp [this]

/-- a step of another list inside a section violates the lock -/
theorem violatesLock_of_inside {lock : LockLists} {x : LockLocation} (hx : IsSection w x)
    (hlist : sectionSymbols w x ∈ lock) (hev : ∀ it ∈ lock, ∀ s ∈ it, isEvent s = true) {s : TraceLocation}
    (hs : s ∈ splitTrace w) (h1 : x.start.position < s.position) (h2 : s.position < x.fin.position)
    {it2 : LockList} (hit2 : it2 ∈ lock) (hin : s.symbol ∈ it2) (hst : ∀ r ∈ it2, r.threadId = s.threadId)
    (ht : s.threadId ≠ x.start.threadId) :
    ViolatesLock lock (events w) := by
  have hinc : Increasing (fun l : TraceLocation => (l.position : ℤ)) (threadedTrace w x.start.threadId) :=
    (word_position w).2.threaded _
  have hstart : x.start ∈ threadedTrace w x.start.threadId := mem_threadedTrace.2 ⟨hx.start, rfl⟩
  have hfin : x.fin ∈ threadedTrace w x.start.threadId := mem_threadedTrace.2 ⟨hx.fin, hx.thread.symm⟩
  have hother : ∀ c ∈ threadedTrace w x.start.threadId, (c.position : ℤ) ≠ s.position := by
    intro c hc heq
    obtain ⟨hc, hct⟩ := mem_threadedTrace.1 hc
    rw [eq_of_position hc hs (by exact_mod_cast heq)] at hct
    exact ht hct
  obtain ⟨l, l', hll, hl, hl', hsl, hlf⟩ :=
    exists_pair hinc hstart hfin (Int.ofNat_lt.2 h1) (Int.ofNat_lt.2 h2) hother
  have hpair := sectionSymbols_pair hll (by exact_mod_cast hsl) (by exact_mod_cast hlf)
    (by exact_mod_cast (hl.trans hl').le)
  obtain ⟨pre, mid, post, heq, hlt, hlt', hmid, hbetween⟩ := (word_position w).2.between hll
  rw [reordered_position] at heq
  have hsm : s ∈ mid := (hbetween s).2 ⟨hs, hl, hl'⟩
  have hlev : isEvent l.symbol = true := hev _ hlist _ (hpair.subset (by simp))
  have hlev' : isEvent l'.symbol = true := hev _ hlist _ (hpair.subset (by simp))
  refine ⟨events (pre.map TraceLocation.symbol), l.symbol, events (mid.map TraceLocation.symbol), l'.symbol,
    events (post.map TraceLocation.symbol), ?_, hlt.trans hlt'.symm, fun r hr => ?_, sectionSymbols w x, hlist,
    (l.symbol, l'.symbol), (mem_neighbours (noEpsilon_of_event hev _ hlist)).2 hpair, Symbol.equals_refl _,
    Symbol.equals_refl _, s.symbol, ?_, it2, hit2, ?_, Symbol.isIn_iff.2 ⟨s.symbol, hin, Symbol.equals_refl _⟩⟩
  · rw [← map_symbol_splitTrace w, heq]
    simp [events, hlev, hlev']
  · obtain ⟨r', hr', rfl⟩ := List.mem_map.1 (List.mem_filter.1 hr).1
    exact fun h => hmid r' hr' (h.trans hlt')
  · exact List.mem_filter.2 ⟨List.mem_map_of_mem hsm, hev _ hit2 _ hin⟩
  · have hfront : frontThread (sectionSymbols w x) = some x.start.threadId := by
      have hsx : ∀ r ∈ sectionSymbols w x, r.threadId = x.start.threadId := by
        intro r hr
        obtain ⟨lr, -, -, -, hlr, rfl⟩ := mem_sectionSymbols.1 hr
        exact hlr
      have hmem : l.symbol ∈ sectionSymbols w x := hpair.subset (by simp)
      rw [threadId_of_front (fun r hr r' hr' => (hsx r hr).trans (hsx r' hr').symm) hmem, hsx _ hmem]
    rw [hfront, threadId_of_front (fun r hr r' hr' => (hst r hr).trans (hst r' hr').symm) hin]
    exact fun h => ht (Option.some.inj h).symm

/-- **Each lock that is found is violated in the trace** when the clause is false at the original positions. -/
theorem findLock_violated {d : Disj ConstraintAtom} {allowOnlyWeak : Bool} {lock : Lock} (hd : OverTrace w d)
    (hthread : ∀ ca ∈ d, ca.before.threadId ≠ ca.after.threadId)
    (hfalse : ∀ ca ∈ d, ca.after.position < ca.before.position)
    (hl : lock ∈ findLock d allowOnlyWeak)
    (hev : ∀ it ∈ lock.locations.map (sectionSymbols w), ∀ s ∈ it, isEvent s = true) :
    SingleThreaded (lock.locations.map (sectionSymbols w)) ∧
      ViolatesLock (lock.locations.map (sectionSymbols w)) (events w) := by
  obtain ⟨x, y, hloc, hx, hy, ⟨ho1, ho2⟩, hne⟩ := lock_overlap (word_position w).2 hd
    (fun ca hca => by exact_mod_cast hfalse ca hca) hl
  have hne' := hne hthread
  rw [hloc] at hev ⊢
  have hsx : ∀ z ∈ [x, y], ∀ r ∈ sectionSymbols w z, r.threadId = z.start.threadId := by
    intro z _ r hr
    obtain ⟨lr, -, -, -, hlr, rfl⟩ := mem_sectionSymbols.1 hr
    exact hlr
  have hstart : ∀ z ∈ [x, y], z.start.symbol ∈ sectionSymbols w z := by
    intro z hz
    have hsec : IsSection w z := by
      simp only [List.mem_cons, List.not_mem_nil, or_false] at hz
      rcases hz with rfl | rfl
      · exact hx
      · exact hy
    exact mem_sectionSymbols.2 ⟨z.start, hsec.start, le_refl _, hsec.le, rfl, rfl⟩
  refine ⟨fun it hit => ?_, ?_⟩
  · obtain ⟨z, hz, rfl⟩ := List.mem_map.1 hit
    exact ⟨List.ne_nil_of_mem (hstart z hz), fun r hr r' hr' => (hsx z hz r hr).trans (hsx z hz r' hr').symm⟩
  · have h1 : x.start.position < y.fin.position := Int.ofNat_lt.1 ho1
    have h2 : y.start.position < x.fin.position := Int.ofNat_lt.1 ho2
    have hstarts : x.start.position ≠ y.start.position := fun h => hne' (by rw [eq_of_position hx.start hy.start h])
    rcases Nat.lt_or_gt_of_ne hstarts with hlt | hgt
    · have hit2 : sectionSymbols w y ∈ [x, y].map (sectionSymbols w) := by simp
      exact violatesLock_of_inside hx (by simp) hev hy.start hlt h2 hit2 (hstart y (by simp)) (hsx y (by simp))
        hne'.symm
    · have hit2 : sectionSymbols w x ∈ [x, y].map (sectionSymbols w) := by simp
      exact violatesLock_of_inside hy (by simp) hev hx.start hgt h1 hit2 (hstart x (by simp)) (hsx x (by simp)) hne'

/-! ## The next round -/

/-- a step that registers conflicts succeeds only if all their numbers are in range -/
theorem foldlM_register_range {idx : List ℕ} {cs cs' : List ConflictT} (h : idx.foldlM register cs = some cs') :
    ∀ n ∈ idx, n % 65536 ≤ maxPayload := by
  induction idx generalizing cs with
  | nil => simp
  | cons n idx ih =>
    rw [List.foldlM_cons, Option.bind_eq_bind, Option.bind_eq_some_iff] at h
    obtain ⟨cs1, h1, h2⟩ := h
    intro k hk
    rcases List.mem_cons.1 hk with rfl | hk
    · obtain ⟨c, hc, -⟩ := Option.map_eq_some_iff.1 h1
      exact (ConflictT.ofIndex_eq_some.1 hc).2
    · exact ih h2 k hk

theorem monitorRun_range {b : ConcurrentAutomaton} {run : List Symbol} {m m' : Monitor}
    (h : b.monitorRun m run = .ok (some m')) {s : Symbol} (hs : s ∈ run) (hev : isEvent s = true) {e : Symbol × ℕ}
    (he : e ∈ b.conflictMap) (heq : e.1.equals s = true) : e.2 % 65536 ≤ maxPayload := by
  induction run generalizing m with
  | nil => simp at hs
  | cons sigma run ih =>
    rw [monitorRun] at h
    split at h
    · rename_i m1 hm1
      rcases List.mem_cons.1 hs with rfl | hs
      · have hn : (s.isRealEpsilon || s.operation == .tag) = false := by simpa [isEvent] using hev
        rw [applyBadTraceDnf, hn] at hm1
        simp only [Bool.false_eq_true, if_false] at hm1
        split at hm1
        · simp at hm1
        · split at hm1
          · simp at hm1
          · rename_i hreg
            exact foldlM_register_range hreg _ (List.mem_map_of_mem (List.mem_filter.2 ⟨he, heq⟩))
      · exact ih h hs
    · rename_i hno
      exact absurd h (hno m')

theorem mem_clauseEntries {k : ℕ} {cl : Disj LockLists} {e : Symbol × ConflictInfo} (h : e ∈ clauseEntries k cl) :
    ∃ lock ∈ cl, ∃ id, e ∈ lockConflicts lock id := by
  unfold clauseEntries at h
  split_ifs at h
  · obtain ⟨i, lock, hi, he⟩ := mem_lockEntries.1 h
    exact ⟨lock, List.mem_of_getElem? hi, _, he⟩
  · obtain ⟨lock, hl, he⟩ := List.mem_flatMap.1 h
    exact ⟨lock, hl, none, he⟩

theorem mem_traceOf {run : List Symbol} {s : Symbol} (h : s ∈ traceOf run) : s ∈ run := (List.mem_filter.1 h).1

theorem mem_of_mem_sectionSymbols {x : LockLocation} {s : Symbol} (h : s ∈ sectionSymbols w x) : s ∈ w := by
  obtain ⟨l, hl, -, -, -, rfl⟩ := mem_sectionSymbols.1 h
  exact List.mem_of_getElem? (mem_splitTrace.1 hl)

theorem restricted_snoc (p : Program) (deadlock : Bool) (calls : List LockSymbols) (new : LockSymbols) :
    restricted p deadlock (calls ++ [new]) = (restricted p deadlock calls).addForbiddenTraces new := by
  simp [restricted]

/-- a clause that is violated has conflicts -/
theorem clauseEntries_ne_nil {cl : Disj LockLists} {ev : List Symbol} (hev : ∀ s ∈ ev, isEvent s = true) (hne : cl ≠ [])
    (hviol : ∀ lock ∈ cl, ViolatesLock lock ev) (locksSize : ℕ) : clauseEntries locksSize cl ≠ [] := by
  obtain ⟨lock, rest, hlock⟩ := List.exists_cons_of_ne_nil hne
  have hv := hviol lock (by rw [hlock]; exact List.mem_cons_self)
  unfold clauseEntries
  split_ifs
  · obtain ⟨e, he, -⟩ := (violatesLock_iff hev (some locksSize)).1 hv
    exact List.ne_nil_of_mem (mem_lockEntries.2 ⟨0, lock, by rw [hlock]; rfl, he⟩)
  · obtain ⟨e, he, -⟩ := (violatesLock_iff hev none).1 hv
    exact List.ne_nil_of_mem (List.mem_flatMap.2 ⟨lock, by rw [hlock]; exact List.mem_cons_self, he⟩)

/-- numbers up to one that does not fit: one of the new ones is out of range after it has been cut to 16 bits -/
theorem exists_out_of_range {m n : ℕ} (hn : maxPayload + 1 < n) (hmn : m < n)
    (hm : m < 65536 ∨ maxPayload < m % 65536) : ∃ k, m ≤ k ∧ k < n ∧ maxPayload < k % 65536 := by
  simp only [maxPayload] at hn hm ⊢
  rcases hm with h | h
  · exact ⟨max m 32767, by omega, by omega, by omega⟩
  · exact ⟨m, le_refl m, hmn, h⟩

section

variable {p : Program} {deadlock : Bool} {calls : List LockSymbols} {cl : Disj LockLists} {run : List Symbol}

/-- a clause that the run violates forbids it as long as all conflicts are in range: then the monitor is exact -/
theorem not_runs_of_inRange (hwf : WellFormedClauses calls.flatten) (hne : cl ≠ [])
    (hviol : ∀ lock ∈ cl, SingleThreaded lock ∧ ViolatesLock lock (events run))
    (hsize : (restricted p deadlock (calls ++ [[cl]])).conflicts.length ≤ maxPayload + 1) :
    ¬(restricted p deadlock (calls ++ [[cl]])).automaton.Runs run := by
  intro hruns
  obtain ⟨⟨entries, hi⟩, hpad, hsame⟩ := installed_addForbiddenTraces p true deadlock (calls ++ [[cl]])
  obtain ⟨m, hm⟩ := runs_monitor hsame.2.1 hruns
  have hlen : entries.length ≤ maxPayload + 1 := by
    rwa [restricted, hi.conflicts, List.length_map] at hsize
  have hwf' : WellFormedClauses (calls ++ [[cl]]).flatten := by
    intro cl' hcl' lock hl
    simp only [List.flatten_append, List.flatten_singleton, List.mem_append, List.mem_singleton] at hcl'
    rcases hcl' with h | rfl
    · exact hwf cl' h lock hl
    · exact (hviol lock hl).1
  exact (monitorRun_iff hi hpad hwf' (handled_of_length hlen run)).1 ⟨m, hm⟩ cl (by simp) hne fun lock hl => (hviol lock hl).2

/-- a conflict of the new clause that is out of range forbids every run in which its past symbol occurs -/
theorem not_runs_of_outOfRange (hne : cl ≠ []) (hviol : ∀ lock ∈ cl, ViolatesLock lock (events run))
    (hoccurs : ∀ lock ∈ cl, ∀ it ∈ lock, ∀ s ∈ it, s ∈ run ∧ isEvent s = true)
    (hids : (restricted p deadlock calls).conflicts.length < 65536 ∨
      maxPayload < (restricted p deadlock calls).conflicts.length % 65536)
    (hsize : maxPayload + 1 < (restricted p deadlock (calls ++ [[cl]])).conflicts.length) :
    ¬(restricted p deadlock (calls ++ [[cl]])).automaton.Runs run := by
  intro hruns
  obtain ⟨⟨entries, hi⟩, -, hsame⟩ := installed_addForbiddenTraces p true deadlock calls
  have hc : (restricted p deadlock (calls ++ [[cl]])).concurrent = true := by
    rw [restricted_snoc]
    exact (sameSettings_addForbiddenTraces _ _).2.1.trans hsame.2.1
  obtain ⟨m, hm⟩ := runs_monitor hc hruns
  rw [restricted_snoc] at hsize hm
  have hadd := hi.addClause cl
  rw [← restricted] at hadd
  set new := clauseEntries (restricted p deadlock calls).locksSize cl
  have hconf : ((restricted p deadlock calls).addForbiddenTraces [cl]).conflicts = (entries ++ new).map Prod.snd :=
    hadd.conflicts
  have hmap : ((restricted p deadlock calls).addForbiddenTraces [cl]).conflictMap =
      (entries ++ new).mapIdx fun i e => (e.1, i) := hadd.conflictMap
  have hnew : new ≠ [] := clauseEntries_ne_nil (fun s hs => (List.mem_filter.1 hs).2) hne hviol _
  rw [hconf, List.length_map] at hsize
  rw [show (restricted p deadlock calls).conflicts.length = entries.length by
    rw [restricted, hi.conflicts, List.length_map]] at hids
  have hlt : entries.length < (entries ++ new).length := by
    rw [List.length_append]
    exact Nat.lt_add_of_pos_right (List.length_pos_of_ne_nil hnew)
  obtain ⟨n, hn, hn', hmod⟩ := exists_out_of_range hsize hlt hids
  obtain ⟨e, he⟩ : ∃ e, (entries ++ new)[n]? = some e := ⟨_, List.getElem?_eq_getElem hn'⟩
  have hmem : e ∈ new := by
    rw [List.getElem?_append_right hn] at he
    exact List.mem_of_getElem? he
  -- its past symbol occurs in the run
  obtain ⟨lock, hl, id, hconfl⟩ := mem_clauseEntries hmem
  obtain ⟨it, hit, uv, huv, it2, -, -, -, rfl⟩ := mem_lockConflicts.1 hconfl
  obtain ⟨hrun, hevent⟩ := hoccurs lock hl it hit uv.1 (mem_of_neighbours huv).1
  have hin : (uv.1, n) ∈ ((restricted p deadlock calls).addForbiddenTraces [cl]).conflictMap := by
    rw [hmap]
    refine List.mem_of_getElem? (i := n) ?_
    simp [List.getElem?_mapIdx, he]
  have hle := monitorRun_range hm hrun hevent hin (Symbol.equals_refl _)
  omega

end

/-- **Progress of a round**: the inferred locks forbid the run, unless the number of the next conflict, cut to 16 bits,
is that of an earlier conflict. -/
theorem progress (p : Program) (deadlock : Bool) (calls : List LockSymbols) (hwf : WellFormedClauses calls.flatten)
    {run : List Symbol} {d : Disj ConstraintAtom} {allowOnlyWeak : Bool} (hd : OverTrace (traceOf run) d)
    (hthread : ∀ ca ∈ d, ca.before.threadId ≠ ca.after.threadId)
    (hfalse : ∀ ca ∈ d, ca.after.position < ca.before.position) (hfound : findLock d allowOnlyWeak ≠ [])
    (hlists : ∀ cl ∈ locksToSymbols [findLock d allowOnlyWeak] (traceOf run), ∀ lock ∈ cl, ∀ it ∈ lock, ∀ s ∈ it,
      s.isPreemptionPoint = false ∧ s.isRealEpsilon = false)
    (hids : (restricted p deadlock calls).conflicts.length < 65536 ∨
      maxPayload < (restricted p deadlock calls).conflicts.length % 65536) :
    ¬(restricted p deadlock
      (calls ++ [locksToSymbols [findLock d allowOnlyWeak] (traceOf run)])).automaton.Runs run := by
  set cl : Disj LockLists := (findLock d allowOnlyWeak).map fun l => l.locations.map (sectionSymbols (traceOf run))
  have hL : locksToSymbols [findLock d allowOnlyWeak] (traceOf run) = [cl] := rfl
  rw [hL] at hlists ⊢
  have hoccurs : ∀ lists ∈ cl, ∀ it ∈ lists, ∀ s ∈ it, s ∈ run ∧ isEvent s = true := by
    intro lists hl it hit s hs
    have hreal := (hlists cl List.mem_cons_self lists hl it hit s hs).2
    obtain ⟨lock, -, rfl⟩ := List.mem_map.1 hl
    obtain ⟨x, -, rfl⟩ := List.mem_map.1 hit
    have hmem := mem_of_mem_sectionSymbols hs
    exact ⟨mem_traceOf hmem, isEvent_of_mem_traceOf hmem hreal⟩
  have hviol : ∀ lists ∈ cl, SingleThreaded lists ∧ ViolatesLock lists (events run) := by
    intro lists hl
    obtain ⟨lock, hlock, rfl⟩ := List.mem_map.1 hl
    rw [← events_traceOf]
    exact findLock_violated hd hthread hfalse hlock fun it hit s hs => (hoccurs _ hl it hit s hs).2
  have hne : cl ≠ [] := fun h => hfound (List.map_eq_nil_iff.1 h)
  by_cases hsize : (restricted p deadlock (calls ++ [[cl]])).conflicts.length ≤ maxPayload + 1
  · exact not_runs_of_inRange hwf hne hviol hsize
  · exact not_runs_of_outOfRange hne (fun lock hl => (hviol lock hl).2) hoccurs hids (not_le.1 hsize)

/-- a word of the program that the monitor accepts is a run of the restricted automaton -/
theorem runs_of_monitor {p : Program} {deadlock : Bool} {b : ConcurrentAutomaton}
    (hsame : SameSettings b (ofProgram p true deadlock)) {run : List Symbol}
    (htrace : ((ofProgram p true deadlock).automaton.trace (ofProgram p true deadlock).startState run).isSome)
    {m : Monitor} (hm : b.monitorRun b.startMonitor run = .ok (some m)) : b.automaton.Runs run := by
  obtain ⟨⟨r, s⟩, hrs⟩ := Option.isSome_iff_exists.1 htrace
  obtain ⟨-, hword⟩ := Automaton.path_of_trace hrs
  obtain ⟨r', s', hr', hf⟩ := (isRunOf_iff hsame rfl (run_of_trace hrs)).2 ⟨m, by rw [hword]; exact hm⟩
  exact ⟨r', s', hr', by rw [← word_of_sameStep hf, hword]⟩

/-- the clause that the interrupted writes violate: `y` comes before the first write or after the second -/
def interruptedClause (first second : Symbol) : Disj ConstraintAtom :=
  [⟨⟨writeOther, 1⟩, ⟨first, 0⟩, false⟩, ⟨⟨second, 2⟩, ⟨writeOther, 1⟩, false⟩]

theorem interruptedClause_locks : locksToSymbols [findLock (interruptedClause write1 write2) false]
    (traceOf [write1, writeOther, write2]) = [[[[writeOther], [write1, write2]]]] := by
  decide

theorem interrupted_progress :
    ¬(restricted lockedProgram false [[[[[writeOther], [write1, write2]]]]]).automaton.Runs
      [write1, writeOther, write2] := by
  have hover : OverTrace (traceOf [write1, writeOther, write2]) (interruptedClause write1 write2) := by
    unfold OverTrace
    decide
  have hlists : ∀ cl ∈ locksToSymbols [findLock (interruptedClause write1 write2) false]
      (traceOf [write1, writeOther, write2]), ∀ lock ∈ cl, ∀ it ∈ lock, ∀ s ∈ it,
      s.isPreemptionPoint = false ∧ s.isRealEpsilon = false := by
    rw [interruptedClause_locks]
    decide
  have h := progress lockedProgram false [] (fun cl hcl => by simp at hcl) hover (by decide) (by decide)
    (by decide : findLock (interruptedClause write1 write2) false ≠ []) hlists (Or.inl (by
      rw [show (restricted lockedProgram false []).conflicts.length = 0 from rfl]
      decide))
  rw [interruptedClause_locks, List.nil_append] at h
  exact h

/-! ## A conflict number cut to 16 bits -/

/-- `if (nondet) { z = 1; z = 2; } else { x = 1; x = 2; }` -/
def eitherThread : AbstractCfg where
  threadId := 0
  states :=
    [State.ofId 0 0, { State.ofId 0 1 with returnState := 6, nonDet := true },
      State.ofAction { operation := .write, var := 2, loc := ⟨0, 2⟩ },
      State.ofAction { operation := .write, var := 2, loc := ⟨0, 3⟩ },
      State.ofAction { operation := .write, var := 0, loc := ⟨0, 4⟩ },
      State.ofAction { operation := .write, var := 0, loc := ⟨0, 5⟩ }, { State.ofId 0 6 with final := true }]
  edges := [[], [{ dst := 2 }, { dst := 4 }], [{ dst := 3 }], [{ dst := 6 }], [{ dst := 5 }], [{ dst := 6 }], []]

theorem eitherThread_wellFormed : eitherThread.WellFormed ⟨3, 0, 0⟩ ∧ eitherThread.threadId = 0 := by
  refine ⟨⟨by decide, by decide, fun id s hs => ?_⟩, rfl⟩
  have hid : id < 7 := (List.getElem?_eq_some_iff.1 hs).1
  have hall : ∀ id < 7, ∀ s ∈ eitherThread.states[id]?,
      (s.action <|> s.nonActionSymbol).map Symbol.loc = some ⟨0, id⟩ := by
    decide
  exact hall id hid s hs

/-- the other thread is `y = 1;` -/
def eitherProgram : Program :=
  Program.twoThreads ⟨3, 0, 0⟩ eitherThread (Program.straight 1 [(.write, 1)]) 40 (by decide) (by decide)
    eitherThread_wellFormed (Program.straight_wellFormed (by simp [Symbol.known]))

def writeZ1 : Symbol := { operation := .write, var := 2, loc := ⟨0, 2⟩ }
def writeZ2 : Symbol := { operation := .write, var := 2, loc := ⟨0, 3⟩ }
def writeX1 : Symbol := { operation := .write, var := 0, loc := ⟨0, 4⟩ }
def writeX2 : Symbol := { operation := .write, var := 0, loc := ⟨0, 5⟩ }

/-- a clause about the other branch, which has one conflict -/
def otherBranch : Disj LockLists := [[[writeZ1, writeZ2], [writeOther]]]

def otherEntry : Symbol × ConflictInfo := (writeZ1, ⟨[writeOther], writeZ2, none⟩)

def newEntry : Symbol × ConflictInfo := (writeX1, ⟨[writeOther], writeX2, none⟩)

/-- the automaton after `n` clauses about the other branch -/
def filled (n : ℕ) : ConcurrentAutomaton :=
  (ofProgram eitherProgram true false).addEntries (List.replicate n otherEntry)

theorem restricted_filled (n : ℕ) : restricted eitherProgram false [List.replicate n otherBranch] = filled n := by
  have hstep : ∀ a, (List.replicate n otherBranch).foldl addClause a = a.addEntries (List.replicate n otherEntry) :=
    foldl_addClause_replicate (by decide) (by decide) n
  simp only [restricted, List.foldl_cons, List.foldl_nil, addForbiddenTraces, hstep]
  rfl

theorem restricted_new (n : ℕ) :
    restricted eitherProgram false [List.replicate n otherBranch, [[[[writeOther], [writeX1, writeX2]]]]] =
      (ofProgram eitherProgram true false).addEntries (List.replicate n otherEntry ++ [newEntry]) := by
  have hsplit := restricted_snoc eitherProgram false [List.replicate n otherBranch]
    [[[[writeOther], [writeX1, writeX2]]]]
  have hstep : addClause (filled n) [[[writeOther], [writeX1, writeX2]]] = (filled n).addEntries [newEntry] :=
    addClause_single (by decide) _
  rw [List.singleton_append] at hsplit
  rw [hsplit, restricted_filled, addForbiddenTraces, List.foldl_cons, List.foldl_nil, hstep, filled,
    addEntries_addEntries]
  rfl

/-- the numbers that a step registers -/
theorem registered_append (n : ℕ) (new : List (Symbol × ConflictInfo)) {s : Symbol} (hs : writeZ1.equals s = false) :
    (((ofProgram eitherProgram true false).addEntries (List.replicate n otherEntry ++ new)).conflictMap.filter
      fun e => e.1.equals s).map Prod.snd =
      ((new.mapIdx fun i e => (e.1, n + i)).filter fun e => e.1.equals s).map Prod.snd := by
  have hnil : ((List.replicate n otherEntry).mapIdx fun i e => (e.1, 0 + i)).filter (fun e => e.1.equals s) = [] := by
    apply List.filter_eq_nil_iff.2
    intro e he
    obtain ⟨i, hi, rfl⟩ := List.mem_mapIdx.1 he
    simp [otherEntry, hs]
  have hmap : ((ofProgram eitherProgram true false).addEntries (List.replicate n otherEntry ++ new)).conflictMap =
      (List.replicate n otherEntry).mapIdx (fun i e => (e.1, 0 + i)) ++ new.mapIdx fun i e => (e.1, n + i) := by
    simp only [addEntries, ofProgram, List.nil_append, List.length_nil, List.mapIdx_append, List.length_replicate,
      Nat.add_comm, Nat.add_zero]
  rw [hmap, List.filter_append, hnil, List.nil_append]

/-- the conflict that number 65536 stands for -/
def aliased : ConflictT := ⟨0#16, by decide⟩

theorem ofIndex_aliased : ConflictT.ofIndex 65536 = some aliased := ConflictT.ofIndex_eq_some.2 ⟨by decide, by decide⟩

/-- it is looked up in the first entry -/
theorem info_aliased {n : ℕ} (hn : 0 < n) (new : List (Symbol × ConflictInfo)) {c : ConflictT} (hc : c.payload = 0) :
    ((ofProgram eitherProgram true false).addEntries (List.replicate n otherEntry ++ new)).info c = otherEntry.2 := by
  obtain ⟨k, rfl⟩ : ∃ k, n = k + 1 := ⟨n - 1, by omega⟩
  simp [info, hc, addEntries, ofProgram, List.replicate_succ]

/-- a step without conflicts of its own in a state without conflicts -/
theorem applyBadTraceDnf_quiet {b : ConcurrentAutomaton} {v : List Bool} {s : Symbol} (hs : isEvent s = true)
    (hreg : (b.conflictMap.filter fun e => e.1.equals s).map Prod.snd = []) :
    b.applyBadTraceDnf ⟨v, []⟩ s = .ok (some ⟨v, []⟩) := by
  have hn : (s.isRealEpsilon || s.operation == .tag) = false := by simpa [isEvent] using hs
  simp [applyBadTraceDnf, hn, hreg]

/-- the branch that does not come about registers nothing -/
theorem monitorRun_filled (n : ℕ) :
    (filled n).monitorRun ⟨[], []⟩ [writeX1, writeOther, writeX2] = .ok (some ⟨[], []⟩) := by
  have hquiet : ∀ s ∈ [writeX1, writeOther, writeX2], (filled n).applyBadTraceDnf ⟨[], []⟩ s = .ok (some ⟨[], []⟩) := by
    intro s hs
    have hz : writeZ1.equals s = false ∧ isEvent s = true := by
      revert s
      decide
    have hreg := registered_append n [] hz.1
    rw [List.append_nil] at hreg
    exact applyBadTraceDnf_quiet hz.2 hreg
  simp only [monitorRun, hquiet writeX1 (by simp), hquiet writeOther (by simp), hquiet writeX2 (by simp)]

/-- conflict 65536 is taken for conflict 0, which `x = 2` does not complete -/
theorem monitorRun_aliased {n : ℕ} (hn : n = 65536) {b : ConcurrentAutomaton}
    (hb : b = (ofProgram eitherProgram true false).addEntries (List.replicate n otherEntry ++ [newEntry])) :
    b.monitorRun ⟨[], []⟩ [writeX1, writeOther, writeX2] = .ok (some ⟨[], []⟩) := by
  have hreg : ∀ s, writeZ1.equals s = false → (b.conflictMap.filter fun e => e.1.equals s).map Prod.snd =
      (([newEntry].mapIdx fun i e => (e.1, 65536 + i)).filter fun e => e.1.equals s).map Prod.snd := by
    intro s hs
    rw [hb, ← hn]
    exact registered_append n [newEntry] hs
  have hinfo : ∀ c : ConflictT, c.payload = 0 → b.info c = otherEntry.2 := by
    intro c hc
    rw [hb]
    exact info_aliased (by omega) _ hc
  have h0 := hinfo aliased (by decide)
  have h1 := hinfo aliased.set (by decide)
  have hfirst : b.applyBadTraceDnf ⟨[], []⟩ writeX1 = .ok (some ⟨[], [aliased]⟩) := by
    have hr := hreg writeX1 (by decide)
    have hregister : register [] 65536 = some [aliased] := by rw [register, ofIndex_aliased]; rfl
    rw [show (([newEntry].mapIdx fun i e => (e.1, 65536 + i)).filter fun e => e.1.equals writeX1).map Prod.snd = [65536]
      from rfl] at hr
    simp [applyBadTraceDnf, hr, hregister, show writeX1.isRealEpsilon = false from rfl,
      show (writeX1.operation == .tag) = false from rfl]
  have hsecond : b.applyBadTraceDnf ⟨[], [aliased]⟩ writeOther = .ok (some ⟨[], [aliased.set]⟩) := by
    have hr := hreg writeOther (by decide)
    rw [show (([newEntry].mapIdx fun i e => (e.1, 65536 + i)).filter fun e => e.1.equals writeOther).map Prod.snd = []
      from rfl] at hr
    have hclean : b.visitClean writeOther [aliased] aliased = [aliased.set] := by
      rw [visitClean, h0]
      decide
    have htagged : b.visitTagged writeOther ⟨[], [aliased.set]⟩ aliased.set = some ⟨[], [aliased.set]⟩ := by
      rw [visitTagged, h1]
      rfl
    simp [applyBadTraceDnf, hr, hclean, htagged, show aliased.test = false from rfl,
      show writeOther.isRealEpsilon = false from rfl,
      show (writeOther.operation == .tag) = false from rfl]
  have hthird : b.applyBadTraceDnf ⟨[], [aliased.set]⟩ writeX2 = .ok (some ⟨[], []⟩) := by
    have hr := hreg writeX2 (by decide)
    rw [show (([newEntry].mapIdx fun i e => (e.1, 65536 + i)).filter fun e => e.1.equals writeX2).map Prod.snd = []
      from rfl] at hr
    have htagged : b.visitTagged writeX2 ⟨[], [aliased.set]⟩ aliased.set = some ⟨[], []⟩ := by
      rw [visitTagged, h1, if_pos (by decide), if_neg (by decide)]
      rfl
    simp [applyBadTraceDnf, hr, htagged, show writeX2.isRealEpsilon = false from rfl,
      show (writeX2.operation == .tag) = false from rfl]
  simp only [monitorRun, hfirst, hsecond, hthird]

/-- the round makes no progress when the number of the new conflict is taken for that of an old one -/
theorem aliased_run :
    ¬ ∀ (p : Program) (deadlock : Bool) (calls : List LockSymbols), WellFormedClauses calls.flatten →
      ∀ (run : List Symbol), (restricted p deadlock calls).automaton.Runs run →
      ∀ (d : Disj ConstraintAtom) (allowOnlyWeak : Bool), OverTrace (traceOf run) d →
        (∀ ca ∈ d, ca.before.threadId ≠ ca.after.threadId) → (∀ ca ∈ d, ca.after.position < ca.before.position) →
        findLock d allowOnlyWeak ≠ [] →
        (∀ cl ∈ locksToSymbols [findLock d allowOnlyWeak] (traceOf run), ∀ lock ∈ cl, ∀ it ∈ lock, ∀ s ∈ it,
          s.isPreemptionPoint = false ∧ s.isRealEpsilon = false) →
        ¬(restricted p deadlock (calls ++ [locksToSymbols [findLock d allowOnlyWeak] (traceOf run)])).automaton.Runs
          run := by
  intro hall
  have hlocks : locksToSymbols [findLock (interruptedClause writeX1 writeX2) false]
      (traceOf [writeX1, writeOther, writeX2]) = [[[[writeOther], [writeX1, writeX2]]]] := by decide
  obtain ⟨n, hn⟩ : ∃ n, n = 65536 := ⟨_, rfl⟩
  have hwf : WellFormedClauses [List.replicate n otherBranch].flatten := by
    intro cl hcl lock hl
    rw [List.flatten_singleton] at hcl
    rw [List.eq_of_mem_replicate hcl] at hl
    rw [List.mem_singleton.1 hl]
    decide
  have htrace : ((ofProgram eitherProgram true false).automaton.trace (ofProgram eitherProgram true false).startState
      [writeX1, writeOther, writeX2]).isSome := by decide
  have hbefore : (restricted eitherProgram false [List.replicate n otherBranch]).automaton.Runs
      [writeX1, writeOther, writeX2] := by
    rw [restricted_filled]
    have hsame : SameSettings (filled n) (ofProgram eitherProgram true false) := ⟨rfl, rfl, rfl, rfl⟩
    exact runs_of_monitor hsame htrace (monitorRun_filled n)
  have hafter := hall eitherProgram false [List.replicate n otherBranch] hwf _ hbefore
    (interruptedClause writeX1 writeX2) false (by unfold OverTrace; decide) (by decide) (by decide) (by decide)
    (by rw [hlocks]; decide)
  rw [hlocks, List.singleton_append, restricted_new] at hafter
  have hsame : SameSettings
      ((ofProgram eitherProgram true false).addEntries (List.replicate n otherEntry ++ [newEntry]))
      (ofProgram eitherProgram true false) := ⟨rfl, rfl, rfl, rfl⟩
  exact hafter (runs_of_monitor hsame htrace (monitorRun_aliased hn rfl))

end Liss.Synthesis
