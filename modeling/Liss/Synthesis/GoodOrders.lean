/-
Good orders are runs of the preemption-free automaton.

The steps of an accepted run of the preemptive automaton, put in the order of an assignment that satisfies the
constraints of `prepare_trace`, are a schedule that the preemption-free automaton can follow:

- `lock_free`: `locks` says that no lock is blocked, as `wait_free` does for `conditionals`;
- `switch_point`: `sequential` says that an interrupted thread goes on with a preemption point;
- `goodOrder_run`: the reads and writes in the order of the assignment are those of an accepted run.
-/
import Liss.Synthesis.ConditionalEncoding
import Liss.Synthesis.LockEncoding

namespace Liss.Synthesis

open ConcurrentAutomaton

variable {ids : Identifiers} {threads : ℕ} {w : List Symbol} {g : Assignment}

theorem seqCondition_eq (l : TraceLocation) : seqCondition l = !l.symbol.isPreemptionPoint := by
  unfold seqCondition Symbol.isPreemptionPoint
  cases l.symbol.operation <;> simp

/-! ## The constraints along the ordering -/

/-- **`locks`**: no lock is blocked. -/
theorem lock_free (hw : OfThreads threads w) (halt : Alternates w) (hg : KeepsThreadOrder w g)
    (hfinal : ∀ l ∈ splitTrace w, g l.position < g (finalState w)) {lk : Expr} (hlk : locks ids threads w = some lk)
    (hl : lk g = true) {pre post : List TraceLocation} {l : TraceLocation} (heq : reordered w g = pre ++ l :: post)
    (hop : l.symbol.operation = .lock) (hvar : l.symbol.var < ids.noLocks) :
    replay (lockBit l.symbol.var) (pre.map TraceLocation.symbol) = false := by
  obtain ⟨prs, hprs, hexcl⟩ := (locks_iff hlk g).1 hl l.symbol.var hvar
  have hpass := (lockings_gathered hprs).lockPass_of_exclusive hw (halt.locksFirst _) ⟨hg, hfinal⟩ hexcl
  refine lockPass_iff.1 hpass _ l.symbol (post.map TraceLocation.symbol) ?_ ⟨hop, rfl⟩
  rw [word, heq, List.map_append, List.map_cons]

/-- **`sequential`**: a thread that is interrupted goes on with a preemption point. -/
theorem switch_point (hw : OfThreads threads w) (hg : KeepsThreadOrder w g) (hs : sequential threads w g = true)
    {pre mid post : List TraceLocation} {x z : TraceLocation} (heq : reordered w g = pre ++ x :: (mid ++ z :: post))
    (ht : z.threadId = x.threadId) (hmid : ∀ y ∈ mid, y.threadId ≠ x.threadId) (hne : mid ≠ []) :
    z.symbol.isPreemptionPoint = true := by
  have hx : x ∈ splitTrace w := mem_reordered.1 (by rw [heq]; simp)
  have hpair : [x, z] <:+: threadedTrace w x.threadId := by
    rw [← hg.threaded_reordered, pair_infix_filter]
    exact ⟨pre, mid, post, heq, by simp, by simp [ht], fun y hy => by simpa using hmid y hy⟩
  simp only [sequential, List.all_eq_true, List.mem_range, Bool.or_eq_true, Bool.not_eq_true', decide_eq_true_eq] at hs
  rcases hs x.threadId (hw.location hx) (x, z) (mem_steps.2 hpair) with hseq | hnext
  · simpa [seqCondition_eq] using hseq
  · -- there is no room for a step in between
    obtain ⟨y, rest, rfl⟩ := List.exists_cons_of_ne_nil hne
    have hinc := hg.increasing
    rw [heq] at hinc
    obtain ⟨-, hxy, hyz⟩ := (mem_between hinc).1 (List.mem_cons_self : y ∈ y :: rest)
    dsimp only at hnext hxy hyz
    omega

/-! ## The schedule of an ordering -/

/-- the moves of a word, in the order of the values -/
def reorderedMoves (ms : List Move) (g : Assignment) : List Move :=
  (reordered (ms.map Move.sym) g).map fun l => ms.getD l.position default

variable {ms : List Move}

theorem getD_move {l : TraceLocation} (hl : l ∈ splitTrace (ms.map Move.sym)) :
    ms.getD l.position default ∈ ms ∧ (ms.getD l.position default).sym = l.symbol := by
  have h := mem_splitTrace.1 hl
  rw [List.getElem?_map, Option.map_eq_some_iff] at h
  obtain ⟨m, hm, hsym⟩ := h
  rw [List.getD_eq_getElem?_getD, hm]
  exact ⟨List.mem_of_getElem? hm, hsym⟩

theorem map_getD (ms : List Move) :
    (splitTrace (ms.map Move.sym)).map (fun l => ms.getD l.position default) = ms := by
  refine List.ext_getElem (by simp [splitTrace]) fun i h1 h2 => ?_
  simp [splitTrace, h2]

/-- each thread makes its own moves in their order -/
theorem movesOf_reordered (hg : KeepsThreadOrder (ms.map Move.sym) g) (t : ℕ) :
    movesOf t (reorderedMoves ms g) = movesOf t ms := by
  have hfilter : ∀ ls : List TraceLocation, (∀ l ∈ ls, l ∈ splitTrace (ms.map Move.sym)) →
      movesOf t (ls.map fun l => ms.getD l.position default) =
        (ls.filter fun l => l.threadId = t).map fun l => ms.getD l.position default := by
    intro ls hls
    rw [movesOf, List.filter_map]
    refine congrArg _ (List.filter_congr fun l hl => ?_)
    have hsym := (getD_move (hls l hl)).2
    show decide ((ms.getD l.position default).sym.threadId = t) = decide (l.symbol.threadId = t)
    rw [hsym]
  rw [reorderedMoves, hfilter _ (fun l hl => mem_reordered.1 hl), hg.threaded_reordered, threadedTrace,
    ← hfilter _ (fun l hl => hl), map_getD]

theorem map_sym_reorderedMoves (g : Assignment) : (reorderedMoves ms g).map Move.sym = word (ms.map Move.sym) g := by
  rw [reorderedMoves, word, List.map_map]
  exact List.map_congr_left fun l hl => (getD_move (mem_reordered.1 hl)).2

/-- no location of the ordering is blocked -/
theorem not_blockedAfter (hw : OfThreads threads w) (halt : Alternates w) (hg : KeepsThreadOrder w g)
    (hfinal : ∀ l ∈ splitTrace w, g l.position < g (finalState w)) {lk : Expr} (hlk : locks ids threads w = some lk)
    (hl : lk g = true) (hc : conditionals ids threads w g = true) {pre post : List TraceLocation} {l : TraceLocation}
    (heq : reordered w g = pre ++ l :: post) (hknown : l.symbol.known ids) :
    blockedAfter (pre.map TraceLocation.symbol) l.symbol = false := by
  unfold Symbol.known at hknown
  unfold blockedAfter
  cases hop : l.symbol.operation with
  | lock =>
    rw [hop] at hknown
    exact lock_free hw halt hg hfinal hlk hl heq hop (by simpa using hknown)
  | wait =>
    rw [hop] at hknown
    have := wait_free hw hg.separates hc heq (Or.inl hop) (by simpa using hknown)
    simpa [hop] using this
  | waitReset =>
    rw [hop] at hknown
    have := wait_free hw hg.separates hc heq (Or.inr (Or.inl hop)) (by simpa using hknown)
    simpa [hop] using this
  | waitNot =>
    rw [hop] at hknown
    have := wait_free hw hg.separates hc heq (Or.inr (Or.inr hop)) (by simpa using hknown)
    simpa [hop] using this
  | _ => rfl

/-- moves before a move are locations before its location -/
theorem reorderedMoves_split {pre post : List Move} {m : Move} (heq : reorderedMoves ms g = pre ++ m :: post) :
    ∃ pre' l post', reordered (ms.map Move.sym) g = pre' ++ l :: post' ∧ m ∈ ms ∧ m.sym = l.symbol ∧
      pre.map Move.sym = pre'.map TraceLocation.symbol := by
  obtain ⟨pre', rest, hre, rfl, hrest⟩ := List.map_eq_append_iff.1 heq
  obtain ⟨l, post', rfl, rfl, rfl⟩ := List.map_eq_cons_iff.1 hrest
  have hlw : ∀ x ∈ pre' ++ l :: post', x ∈ splitTrace (ms.map Move.sym) := fun x hx => by
    rw [← hre] at hx
    exact mem_reordered.1 hx
  obtain ⟨hmem, hsym⟩ := getD_move (hlw l (by simp))
  refine ⟨pre', l, post', hre, hmem, hsym, ?_⟩
  rw [List.map_map]
  exact List.map_congr_left fun x hx => (getD_move (hlw x (by simp [hx]))).2

/-- **The reordered moves are a schedule.** -/
theorem reordered_schedule {a : ConcurrentAutomaton} (ha : a.Numbered ids) (hmoves : ∀ m ∈ ms, a.IsMove m)
    {fin : ℕ → ℤ} (hleads : ∀ t < a.threads.length, Leads (-1) (movesOf t ms) (fin t))
    (hend : ∀ t < a.threads.length, fin t = noState ∨ (a.thread t).intIsFinalState (fin t) = true)
    (hw : OfThreads threads (ms.map Move.sym)) (halt : Alternates (ms.map Move.sym))
    (hg : KeepsThreadOrder (ms.map Move.sym) g)
    (hfinal : ∀ l ∈ splitTrace (ms.map Move.sym), g l.position < g (finalState (ms.map Move.sym))) {lk : Expr}
    (hlk : locks ids threads (ms.map Move.sym) = some lk) (hl : lk g = true)
    (hc : conditionals ids threads (ms.map Move.sym) g = true) (hs : sequential threads (ms.map Move.sym) g = true) :
    a.Schedule fin (reorderedMoves ms g) where
  moves := by
    intro m hm
    obtain ⟨l, hl, rfl⟩ := List.mem_map.1 hm
    exact hmoves _ (getD_move (mem_reordered.1 hl)).1
  leads := by
    intro t ht
    rw [movesOf_reordered hg]
    exact hleads t ht
  final := hend
  free := by
    intro pre m post heq
    obtain ⟨pre', l, post', hre, hmem, hsym, hpre⟩ := reorderedMoves_split heq
    -- the numbers of the symbol are known to the identifier store
    have hknown := ((ha _).1.nextSymbols (hmoves m hmem).offered).2
    rw [hsym] at hknown
    rw [hpre, hsym]
    exact not_blockedAfter hw halt hg hfinal hlk hl hc hre hknown
  switch := by
    intro pre x mid z post heq ht hmid hne
    obtain ⟨pre', rest, hre, rfl, hrest⟩ := List.map_eq_append_iff.1 heq
    obtain ⟨lx, rest', rfl, rfl, hrest'⟩ := List.map_eq_cons_iff.1 hrest
    obtain ⟨mid', rest'', rfl, rfl, hrest''⟩ := List.map_eq_append_iff.1 hrest'
    obtain ⟨lz, post', rfl, rfl, rfl⟩ := List.map_eq_cons_iff.1 hrest''
    have hlw : ∀ y ∈ pre' ++ lx :: (mid' ++ lz :: post'), y ∈ splitTrace (ms.map Move.sym) := fun y hy => by
      rw [← hre] at hy
      exact mem_reordered.1 hy
    have hthread : ∀ y ∈ pre' ++ lx :: (mid' ++ lz :: post'), (ms.getD y.position default).thread = y.threadId :=
      fun y hy => by rw [Move.thread, (getD_move (hlw y hy)).2, TraceLocation.threadId]
    rw [(getD_move (hlw lz (by simp))).2]
    refine switch_point hw hg hs hre ?_ (fun y hy => ?_) (fun hnil => hne (by rw [hnil]; rfl))
    · rw [← hthread lz (by simp), ← hthread lx (by simp)]
      exact ht
    · rw [← hthread y (by simp [hy]), ← hthread lx (by simp)]
      exact hmid _ (List.mem_map_of_mem hy)

/-- **Good orders are real non-preemptive runs.** -/
theorem goodOrder_run (p : Program) (deadlock : Bool) {w : List Symbol}
    (hacc : (ofProgram p true deadlock).automaton.Accepts w) (halt : Alternates w) {lk : Expr}
    (hlk : locks p.identifiers p.noThreads w = some lk) {g : Assignment} (ho : threadOrder p.noThreads w g = true)
    (hd : distinct w g = true) (hl : lk g = true) (hc : conditionals p.identifiers p.noThreads w g = true)
    (hs : sequential p.noThreads w g = true) :
    ∃ w', (ofProgram p false deadlock).automaton.Accepts w' ∧ accesses w' = accesses (word w g) := by
  obtain ⟨r, s, hrun, hfinal, rfl⟩ := hacc
  have hword : Automaton.word r = (r.map moveOf).map Move.sym := by
    rw [List.map_map]
    rfl
  have hthreads : (ofProgram p true deadlock).threads.length = p.noThreads := p.length_minimised
  have ha := numbered_ofProgram p true deadlock
  have hmoves := isMove_of_run ha rfl hrun
  have hslen := (run_length hrun).1
  have hpath := run_iff.1 hrun
  rw [hword] at halt hlk ho hd hc hs ⊢
  have hw : OfThreads p.noThreads ((r.map moveOf).map Move.sym) := by
    intro x hx
    obtain ⟨m, hm, rfl⟩ := List.mem_map.1 hx
    rw [← hthreads]
    exact (hmoves m hm).lt
  have hleads : ∀ t < (ofProgram p false deadlock).threads.length, Leads (-1) (movesOf t (r.map moveOf)) (s.pos t) := by
    intro t ht
    have ht' : t < (ofProgram p true deadlock).threads.length := ht
    rw [← pos_startState ht']
    exact path_leads hpath t
  have hend : ∀ t < (ofProgram p false deadlock).threads.length, s.pos t = noState ∨
      ((ofProgram p false deadlock).thread t).intIsFinalState (s.pos t) = true := by
    intro t ht
    have hall : (ofProgram p true deadlock).intIsFinalState s = true := hfinal
    simp only [intIsFinalState, List.all_eq_true, List.mem_range, hslen, Bool.or_eq_true, beq_iff_eq] at hall
    exact hall t ht
  have hmoves' : ∀ m ∈ r.map moveOf, (ofProgram p false deadlock).IsMove m := fun m hm =>
    ⟨(hmoves m hm).active, (hmoves m hm).offered, (hmoves m hm).dst⟩
  have hord := isOrdering_of hw ho hd
  have hschedule := reordered_schedule (numbered_ofProgram p false deadlock) hmoves' hleads hend hw halt
    hord.toKeepsThreadOrder hord.final hlk hl hc hs
  obtain ⟨w', hacc, haccess⟩ := schedule_accepts (plain_ofProgram p false deadlock)
    (numbered_ofProgram p false deadlock) rfl hschedule
  exact ⟨w', hacc, by rw [haccess, map_sym_reorderedMoves]⟩

/-! ## A yield and two critical sections -/

/-- `lock(l); x=1; unlock(l);` and `yield(); lock(l); x=2; unlock(l);` -/
def sections : Program :=
  Program.twoThreads ⟨1, 1, 0⟩ (Program.straight 0 [(.lock, 0), (.write, 0), (.unlock, 0)])
    (Program.straight 1 [(.yield, 0), (.lock, 0), (.write, 0), (.unlock, 0)]) 40 (by decide) (by decide)
    (Program.straight_wellFormed (by simp [Symbol.known])) (Program.straight_wellFormed (by simp [Symbol.known]))

/-- the second thread yields inside the section of the first -/
def sectionsWord : List Symbol :=
  [{ operation := .lock, loc := ⟨0, 3⟩ }, { operation := .yield, loc := ⟨1, 3⟩ },
    { operation := .write, loc := ⟨0, 4⟩ }, { operation := .unlock, loc := ⟨0, 5⟩ },
    { operation := .lock, loc := ⟨1, 4⟩ }, { operation := .write, loc := ⟨1, 5⟩ },
    { operation := .unlock, loc := ⟨1, 6⟩ }]

/-- the second thread comes first -/
def sectionsOrder : Assignment := fun i => [4, 0, 5, 6, 1, 2, 3, 7].getD i 0

theorem sectionsWord_accepts : (ofProgram sections true false).automaton.Accepts sectionsWord := by
  obtain ⟨⟨r, s⟩, htr, hfinal⟩ : ∃ x, (ofProgram sections true false).automaton.trace
      (ofProgram sections true false).startState sectionsWord = some x ∧
      (ofProgram sections true false).intIsFinalState x.2 = true :=
    ⟨((ofProgram sections true false).automaton.trace (ofProgram sections true false).startState sectionsWord).get
      (by decide), by simp, by decide⟩
  exact ⟨r, s, run_of_trace htr, hfinal, (Automaton.path_of_trace htr).2⟩

theorem sections_run : ∃ w', (ofProgram sections false false).automaton.Accepts w' ∧
    accesses w' = [{ operation := .write, loc := ⟨1, 5⟩ }, { operation := .write, loc := ⟨0, 4⟩ }] := by
  have hw : OfThreads 2 sectionsWord := by
    unfold OfThreads
    decide
  have halt : Alternates sectionsWord := alternates_of (by decide)
  obtain ⟨lk, hlk⟩ := Option.isSome_iff_exists.1 (locks_isSome hw halt ⟨1, 1, 0⟩)
  have hl : lk sectionsOrder = true := by
    have hall : ∀ e ∈ locks ⟨1, 1, 0⟩ 2 sectionsWord, e sectionsOrder = true := by decide
    exact hall lk hlk
  obtain ⟨w', hacc, haccess⟩ := goodOrder_run sections false sectionsWord_accepts halt hlk (by decide) (by decide) hl
    (by decide) (by decide)
  exact ⟨w', hacc, haccess.trans (by decide)⟩

end Liss.Synthesis
