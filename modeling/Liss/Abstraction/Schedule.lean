/-
Which schedules the preemption-free automaton can follow.

A schedule is a list of moves, each a step of one thread. The automaton leaves a thread after a yield, and by an attempt
without progress of the lock or wait that comes next; where the next move of the thread is a yield, it is made early.

- `Schedule`: the threads move as their automata do, no lock or wait is blocked, and an interrupted thread goes on with
  a preemption point;
- `sim_step`: one move of the schedule is matched by steps of the automaton with the same reads and writes;
- `schedule_accepts`: the reads and writes of a schedule are those of an accepted run.
-/
import Liss.Lib.Replay
import Liss.Abstraction.Steps

namespace Liss.ConcurrentAutomaton

/-! ## Moves -/

/-- a step of one thread, with its positions before and after -/
structure Move where
  sym : Symbol
  src : ℤ
  dst : ℤ
deriving DecidableEq

instance : Inhabited Move := ⟨⟨Symbol.ofState 0 0, 0, 0⟩⟩

def Move.thread (m : Move) : ℕ := m.sym.threadId

/-- the thread automaton can make the move; with `deadlock` the thread may stop where it may terminate -/
structure IsMove (a : ConcurrentAutomaton) (m : Move) : Prop where
  active : m.src ≠ noState
  offered : m.sym ∈ (a.thread m.thread).intNextSymbols m.src
  dst : ∃ p ∈ (a.thread m.thread).intSuccessors m.src m.sym, m.dst = p.state ∨
    (a.deadlock = true ∧ (a.thread m.thread).intIsFinalState p.state = true ∧ m.dst = noState)

/-- the moves lead from one position to another -/
def Leads : ℤ → List Move → ℤ → Prop
  | p, [], q => p = q
  | p, m :: ms, q => m.src = p ∧ Leads m.dst ms q

/-- the moves of one thread -/
def movesOf (t : ℕ) (ms : List Move) : List Move := ms.filter fun m => m.thread = t

@[simp] theorem movesOf_nil (t : ℕ) : movesOf t [] = [] := rfl

theorem movesOf_own (m : Move) (ms : List Move) : movesOf m.thread (m :: ms) = m :: movesOf m.thread ms := by
  simp [movesOf]

theorem movesOf_other {t : ℕ} {m : Move} (h : m.thread ≠ t) (ms : List Move) : movesOf t (m :: ms) = movesOf t ms := by
  simp [movesOf, h]

/-! ## The bits along a schedule -/

/-- what a symbol does to the bit of lock `v` -/
def lockBit (v : ℕ) (s : Symbol) : Option Bool :=
  if s.var ≠ v then none
  else
    match s.operation with
    | .lock => some true
    | .unlock => some false
    | _ => none

/-- what a symbol does to the bit of conditional `v` -/
def condBit (v : ℕ) (s : Symbol) : Option Bool :=
  if s.var ≠ v then none
  else
    match s.operation with
    | .notify => some true
    | .reset | .waitReset => some false
    | _ => none

theorem mem_lockEffect {v : ℕ} {s : Symbol} {locks : Finset ℕ} {b : Bool} (h : v ∈ locks ↔ b = true) :
    v ∈ lockEffect s locks ↔ (lockBit v s).getD b = true := by
  unfold lockEffect lockBit
  by_cases hv : s.var = v
  · subst hv
    cases s.operation <;> simp [h]
  · have hv' : ¬v = s.var := fun h => hv h.symm
    cases s.operation <;> simp [h, hv, hv']

theorem mem_condEffect {v : ℕ} {s : Symbol} {conditionals : Finset ℕ} {b : Bool} (h : v ∈ conditionals ↔ b = true) :
    v ∈ condEffect s conditionals ↔ (condBit v s).getD b = true := by
  unfold condEffect condBit
  by_cases hv : s.var = v
  · subst hv
    cases s.operation <;> simp [h]
  · have hv' : ¬v = s.var := fun h => hv h.symm
    cases s.operation <;> simp [h, hv, hv']

/-- the symbol would be blocked after the others -/
def blockedAfter (done : List Symbol) (sigma : Symbol) : Bool :=
  match sigma.operation with
  | .waitReset | .wait => !replay (condBit sigma.var) done
  | .waitNot => replay (condBit sigma.var) done
  | .lock => replay (lockBit sigma.var) done
  | _ => false

theorem blocked_eq {s : ConcurrentState} {done : List Symbol} (hl : ∀ v, v ∈ s.locks ↔ replay (lockBit v) done = true)
    (hc : ∀ v, v ∈ s.conditionals ↔ replay (condBit v) done = true) (sigma : Symbol) :
    blocked s sigma = blockedAfter done sigma := by
  unfold blocked blockedAfter
  cases sigma.operation <;> simp [hl, hc]

/-! ## Schedules -/

/-- moves that the preemption-free automaton can make in this order; `fin` are the final positions of the threads -/
structure Schedule (a : ConcurrentAutomaton) (fin : ℕ → ℤ) (ms : List Move) : Prop where
  moves : ∀ m ∈ ms, a.IsMove m
  leads : ∀ t < a.threads.length, Leads (-1) (movesOf t ms) (fin t)
  final : ∀ t < a.threads.length, fin t = noState ∨ (a.thread t).intIsFinalState (fin t) = true
  free : ∀ pre m post, ms = pre ++ m :: post → blockedAfter (pre.map Move.sym) m.sym = false
  switch : ∀ pre x mid z post, ms = pre ++ x :: (mid ++ z :: post) → z.thread = x.thread →
    (∀ y ∈ mid, y.thread ≠ x.thread) → mid ≠ [] → z.sym.isPreemptionPoint = true

/-- a preemption point is a yield, or a lock or wait that the thread may be switched at -/
theorem preemptionPoint_cases {s : ConcurrentState} {sigma : Symbol} (h : sigma.isPreemptionPoint = true)
    (hcur : s.current ≠ none) :
    sigma.operation = .yield ∨ (conditionalYield sigma = true ∧ mustSucceed s sigma = false) := by
  have hnone : s.current.isNone = false := by
    cases hc : s.current with
    | none => exact absurd hc hcur
    | some t => rfl
  obtain ⟨hassume, hsynth, -⟩ := sigma.flags
  unfold Symbol.isPreemptionPoint at h
  unfold conditionalYield mustSucceed
  cases hop : sigma.operation <;> simp_all

/-! ## Steps of the automaton -/

section

variable {a : ConcurrentAutomaton} {ids : Identifiers} {s : ConcurrentState}

/-- an automaton without synthesised locks and without filter -/
structure Plain (a : ConcurrentAutomaton) : Prop where
  filter : a.successorFilter = []
  conflictMap : a.conflictMap = []

theorem plain_ofProgram (p : Program) (concurrent deadlock : Bool) :
    (ofProgram p concurrent deadlock).Plain := ⟨rfl, rfl⟩

theorem Plain.applyBadTraceDnf (h : a.Plain) {m : Monitor} (hm : m.conflicts = []) (sigma : Symbol) :
    ∃ m', a.applyBadTraceDnf m sigma = .ok (some m') ∧ m'.conflicts = [] := by
  unfold ConcurrentAutomaton.applyBadTraceDnf
  split_ifs
  · exact ⟨m, rfl, hm⟩
  · simp [hm, h.conflictMap]

theorem Plain.offered (h : a.Plain) (ha : a.Numbered ids) {m : Move} (hm : a.IsMove m)
    (hpos : s.pos m.thread = m.src) (hlt : m.thread < s.threads.length)
    (hcur : s.current = none ∨ s.current = some m.thread) : m.sym ∈ a.intNextSymbols s := by
  refine (mem_intNextSymbols ha).2 ⟨hcur.imp (fun h => ⟨h, hlt⟩) id, ?_⟩
  have hoff := hm.offered
  rw [← hpos] at hoff
  have hactive : s.pos m.sym.threadId ≠ noState := by
    rw [show s.pos m.sym.threadId = m.src from hpos]
    exact hm.active
  rw [nextSingle, if_pos hactive]
  exact List.mem_filter.2 ⟨hoff, by simp [h.filter]⟩

theorem IsMove.lt {m : Move} (hm : a.IsMove m) : m.thread < a.threads.length := thread_lt_of_offered hm.offered

/-- the running thread attempts a lock or wait and is switched -/
theorem step_attempt (h : a.Plain) (ha : a.Numbered ids) {m : Move} (hm : a.IsMove m)
    (hlen : s.threads.length = a.threads.length) (hpos : s.pos m.thread = m.src) (hcur : s.current = some m.thread)
    (hyield : conditionalYield m.sym = true) (hmay : mustSucceed s m.sym = false) :
    a.automaton.Step ⟨s, m.sym, { s with current := none }⟩ :=
  (step_iff a _).2 ⟨h.offered ha hm hpos (hlen ▸ hm.lt) (Or.inr hcur), Or.inr hcur, Or.inl ⟨hyield, hmay, rfl⟩⟩

/-- the state `s'` after the move -/
structure After (a : ConcurrentAutomaton) (m : Move) (s s' : ConcurrentState) : Prop where
  length : s'.threads.length = s.threads.length
  conflicts : s'.conflicts = []
  own : s'.pos m.thread = m.dst
  other : ∀ t ≠ m.thread, s'.pos t = s.pos t
  locks : s'.locks = lockEffect m.sym s.locks
  conditionals : s'.conditionals = condEffect m.sym s.conditionals
  current : s'.current = none ∨ (s'.current = some m.thread ∧ (a.thread m.thread).intIsFinalState m.dst = false ∧
    m.dst ≠ noState)

/-- the thread makes the move -/
theorem step_execute (h : a.Plain) (ha : a.Numbered ids) (hnc : a.concurrent = false) {m : Move} (hm : a.IsMove m)
    (hlen : s.threads.length = a.threads.length) (hconf : s.conflicts = []) (hpos : s.pos m.thread = m.src)
    (hcur : s.current = none ∨ s.current = some m.thread) (hfree : blocked s m.sym = false)
    (hmust : conditionalYield m.sym = true → mustSucceed s m.sym = true) :
    ∃ s', a.automaton.Step ⟨s, m.sym, s'⟩ ∧ a.After m s s' ∧ (m.sym.operation = .yield → s'.current = none) := by
  have hlt : m.thread < s.threads.length := hlen ▸ hm.lt
  have hoff := h.offered ha hm hpos hlt hcur
  obtain ⟨mon, hmon, hmc⟩ := h.applyBadTraceDnf hconf m.sym
  obtain ⟨p, hp, hdst⟩ := hm.dst
  have hp' : p ∈ (a.thread m.sym.threadId).intSuccessors (s.pos m.sym.threadId) m.sym := by
    rw [show s.pos m.sym.threadId = m.src from hpos]
    exact hp
  have hexec : (a.executed s m.sym mon p).pos m.thread = p.state := executed_pos hlt
  have hother : ∀ t ≠ m.thread, (a.executed s m.sym mon p).pos t = s.pos t := by
    intro t ht
    have ht' : m.sym.threadId ≠ t := Ne.symm ht
    simp [executed, ConcurrentState.pos, List.getD_eq_getElem?_getD, List.getElem?_set_ne ht']
  rcases hdst with hdst | ⟨hdl, hfinal, hdst⟩
  · refine ⟨a.executed s m.sym mon p,
      (step_iff a _).2 ⟨hoff, hcur, Or.inr ⟨hfree, hmust, mon, hmon, p, hp', Or.inl rfl⟩⟩,
      ⟨by simp [executed], hmc, hexec.trans hdst.symm, hother, rfl, rfl, ?_⟩, fun hy => by simp [executed, hy]⟩
    cases hf : (a.thread m.thread).intIsFinalState p.state with
    | true =>
      left
      have hf' : (a.thread m.sym.threadId).intIsFinalState p.state = true := hf
      simp [executed, hf']
    | false =>
      have hf' : (a.thread m.sym.threadId).intIsFinalState p.state = false := hf
      by_cases hy : m.sym.operation = .yield
      · exact Or.inl (by simp [executed, hy])
      · refine Or.inr ⟨by simp [executed, hf', hnc, hy, Move.thread], by rw [hdst]; exact hf, ?_⟩
        rw [hdst]
        exact (ha m.thread).1.successors_ne hp hm.active
  · refine ⟨(a.executed s m.sym mon p).setPos m.thread noState,
      (step_iff a _).2 ⟨hoff, hcur, Or.inr ⟨hfree, hmust, mon, hmon, p, hp', Or.inr ⟨hdl, ?_, rfl⟩⟩⟩,
      ⟨by simp [executed], hmc, ?_, ?_, rfl, rfl, ?_⟩, fun hy => by simp [executed, hy, ConcurrentState.setPos]⟩
    · show (a.thread m.thread).intIsFinalState ((a.executed s m.sym mon p).pos m.thread) = true
      rw [hexec]
      exact hfinal
    · rw [ConcurrentState.pos_setPos, if_pos ⟨rfl, by simpa [executed] using hlt⟩, hdst]
    · intro t ht
      rw [ConcurrentState.pos_setPos, if_neg (fun hc => ht hc.1.symm), hother t ht]
    · left
      have hf' : (a.thread m.sym.threadId).intIsFinalState p.state = true := hfinal
      simp [executed, ConcurrentState.setPos, hf']

end

/-! ## The moves of a run -/

def moveOf (t : Trans ConcurrentState Symbol) : Move :=
  ⟨t.sym, t.src.pos t.sym.threadId, t.dst.pos t.sym.threadId⟩

/-- each thread moves along the run -/
theorem path_leads {a : ConcurrentAutomaton} {s s' : ConcurrentState} {r : List (Trans ConcurrentState Symbol)}
    (h : a.automaton.Path s r s') (t : ℕ) : Leads (s.pos t) (movesOf t (r.map moveOf)) (s'.pos t) := by
  induction h with
  | nil s => exact rfl
  | @cons x r u hx _ ih =>
    rw [List.map_cons]
    by_cases ht : x.sym.threadId = t
    · subst ht
      have hown := movesOf_own (moveOf x) (r.map moveOf)
      rw [show (moveOf x).thread = x.sym.threadId from rfl] at hown
      rw [hown]
      exact ⟨rfl, ih⟩
    · have hframe := step_frame hx (Ne.symm ht)
      rw [movesOf_other (show (moveOf x).thread ≠ t from ht), ← hframe]
      exact ih

/-- the steps of the preemptive automaton are moves -/
theorem isMove_of_run {a : ConcurrentAutomaton} {ids : Identifiers} (ha : a.Numbered ids) (hc : a.concurrent = true)
    {r : List (Trans ConcurrentState Symbol)} {s : ConcurrentState} (h : a.automaton.Run r s) :
    ∀ m ∈ r.map moveOf, a.IsMove m := by
  have hlen := (run_length h).2
  have hpath := run_iff.1 h
  have hcur := Automaton.path_inv_src (fun s : ConcurrentState => s.current = none)
    (fun t ht hn => (step_preemptive hc ht hn).2) hpath rfl
  intro m hm
  obtain ⟨t, ht, rfl⟩ := List.mem_map.1 hm
  have hstep := hpath.step t ht
  have hoff := ((mem_intNextSymbols ha).1 ((step_iff a t).1 hstep).1).2
  have hlt : t.sym.threadId < t.src.threads.length := by
    rw [hlen t ht]
    exact thread_lt_of_offered (offered hoff)
  obtain ⟨mon, -, p, hp, hdst⟩ := (step_preemptive hc hstep (hcur t ht)).1.dst
  refine ⟨fun hno => ?_, offered hoff, p, hp, ?_⟩
  · have hno' : t.src.pos t.sym.threadId = noState := hno
    rw [nextSingle, if_neg (not_not.2 hno')] at hoff
    simp at hoff
  · rcases hdst with hdst | ⟨hdl, hfinal, hdst⟩
    · left
      rw [moveOf, hdst]
      exact executed_pos hlt
    · right
      rw [executed_pos hlt] at hfinal
      refine ⟨hdl, hfinal, ?_⟩
      rw [moveOf, hdst, ConcurrentState.pos_setPos, if_pos ⟨rfl, by simpa [executed] using hlt⟩]

/-! ## Following a schedule -/

/-- the reads and writes of a word -/
def accesses (w : List Symbol) : List Symbol := w.filter fun s => s.operation == .read || s.operation == .write

theorem accesses_append (w w' : List Symbol) : accesses (w ++ w') = accesses w ++ accesses w' := by simp [accesses]

theorem accesses_eq_nil {s : Symbol} (h : s.operation = .yield ∨ conditionalYield s = true) : accesses [s] = [] := by
  unfold conditionalYield at h
  unfold accesses
  cases hop : s.operation <;> simp_all

/-- the next move of the thread is a yield that it has already made -/
def Early (fin : ℕ → ℤ) (rest : List Move) (s : ConcurrentState) (t : ℕ) : Prop :=
  ∃ y tail, movesOf t rest = y :: tail ∧ y.sym.operation = .yield ∧ Leads (s.pos t) tail (fin t)

/-- the thread is where its next moves start -/
def Ready (fin : ℕ → ℤ) (rest : List Move) (s : ConcurrentState) (t : ℕ) : Prop :=
  Leads (s.pos t) (movesOf t rest) (fin t) ∨ Early fin rest s t

/-- the state between two parts of a schedule -/
structure Sim (a : ConcurrentAutomaton) (fin : ℕ → ℤ) (done rest : List Move) (s : ConcurrentState) : Prop where
  length : s.threads.length = a.threads.length
  conflicts : s.conflicts = []
  locks : ∀ v, v ∈ s.locks ↔ replay (lockBit v) (done.map Move.sym) = true
  conditionals : ∀ v, v ∈ s.conditionals ↔ replay (condBit v) (done.map Move.sym) = true
  ready : ∀ t < a.threads.length, Ready fin rest s t
  running : ∀ t, s.current = some t →
    movesOf t rest ≠ [] ∧ Leads (s.pos t) (movesOf t rest) (fin t) ∧ ∃ x ∈ done, x.thread = t

section

variable {a : ConcurrentAutomaton} {ids : Identifiers} {s : ConcurrentState} {fin : ℕ → ℤ} {ms done rest : List Move}
  {y : Move}

/-- a move of another thread changes nothing for a thread -/
theorem Ready.frame {s' : ConcurrentState} {rest' : List Move} {t : ℕ} (h : Ready fin rest s t)
    (hpos : s'.pos t = s.pos t) (hmoves : movesOf t rest' = movesOf t rest) : Ready fin rest' s' t := by
  unfold Ready Early
  rw [hpos, hmoves]
  exact h

theorem Sim.suspend (h : a.Sim fin done rest s) : a.Sim fin done rest { s with current := none } where
  length := h.length
  conflicts := h.conflicts
  locks := h.locks
  conditionals := h.conditionals
  ready := h.ready
  running := fun t ht => by simp at ht

/-- the last element with a property -/
theorem exists_last {α : Type*} {p : α → Prop} {l : List α} (h : ∃ x ∈ l, p x) :
    ∃ pre x post, l = pre ++ x :: post ∧ p x ∧ ∀ z ∈ post, ¬p z := by
  induction l using List.reverseRecOn with
  | nil => simp at h
  | append_singleton l z ih =>
    by_cases hz : p z
    · exact ⟨l, z, [], rfl, hz, by simp⟩
    · obtain ⟨x, hx, hpx⟩ := h
      rcases List.mem_append.1 hx with hx | hx
      · obtain ⟨pre, x', post, rfl, hx', hpost⟩ := ih ⟨x, hx, hpx⟩
        refine ⟨pre, x', post ++ [z], by simp, hx', fun y hy => ?_⟩
        rcases List.mem_append.1 hy with hy | hy
        · exact hpost y hy
        · rwa [List.mem_singleton.1 hy]
      · rw [List.mem_singleton.1 hx] at hpx
        exact absurd hpx hz

/-- the running thread is interrupted by the next move: it goes on with a preemption point -/
theorem Schedule.interrupted (hs : a.Schedule fin ms) (heq : ms = done ++ y :: rest) {t : ℕ} (hne : y.thread ≠ t)
    (hdone : ∃ x ∈ done, x.thread = t) {z : Move} {tail : List Move} (hz : movesOf t (y :: rest) = z :: tail) :
    z.sym.isPreemptionPoint = true ∧ z ∈ ms ∧ z.thread = t := by
  rw [movesOf_other hne] at hz
  obtain ⟨mid, post, hrest, hmid, hzt, -⟩ := List.filter_eq_cons_iff.1 hz
  have hzt : z.thread = t := by simpa using hzt
  obtain ⟨pre, x, mid0, hd, hx, hmid0⟩ := exists_last hdone
  have hms : ms = pre ++ x :: ((mid0 ++ y :: mid) ++ z :: post) := by rw [heq, hd, hrest]; simp
  refine ⟨hs.switch pre x (mid0 ++ y :: mid) z post hms (hzt.trans hx.symm) (fun r hr => ?_) (by simp), ?_, hzt⟩
  · rw [hx]
    rcases List.mem_append.1 hr with hr | hr
    · exact hmid0 r hr
    · rcases List.mem_cons.1 hr with rfl | hr
      · exact hne
      · simpa using hmid r hr
  · rw [hms]
    simp

/-- the thread of the next move can be scheduled -/
theorem sim_release (h : a.Plain) (ha : a.Numbered ids) (hnc : a.concurrent = false) (hs : a.Schedule fin ms)
    (heq : ms = done ++ y :: rest) (hsim : a.Sim fin done (y :: rest) s) :
    ∃ r s', a.automaton.Path s r s' ∧ accesses (Automaton.word r) = [] ∧ a.Sim fin done (y :: rest) s' ∧
      (s'.current = none ∨ (s'.current = some y.thread ∧
        (conditionalYield y.sym = true → mustSucceed s' y.sym = true))) := by
  cases hcur : s.current with
  | none => exact ⟨[], s, .nil s, rfl, hsim, Or.inl hcur⟩
  | some t =>
    obtain ⟨hne, hleads, hdone⟩ := hsim.running t hcur
    obtain ⟨z, tail, hz⟩ := List.exists_cons_of_ne_nil hne
    rw [hz] at hleads
    by_cases ht : y.thread = t
    · -- the thread itself goes on
      subst ht
      obtain ⟨rfl, -⟩ : y = z ∧ movesOf y.thread rest = tail := by simpa [movesOf_own] using hz
      by_cases hmay : conditionalYield y.sym = true ∧ mustSucceed s y.sym = false
      · have hy : a.IsMove y := hs.moves y (by rw [heq]; simp)
        have hstep := step_attempt h ha hy hsim.length hleads.1.symm hcur hmay.1 hmay.2
        refine ⟨_, _, .single hstep, accesses_eq_nil (Or.inr hmay.1), hsim.suspend, Or.inl rfl⟩
      · refine ⟨[], s, .nil s, rfl, hsim, Or.inr ⟨hcur, fun hc => ?_⟩⟩
        simpa [hc] using hmay
    · -- another thread is scheduled
      obtain ⟨hpoint, hzms, rfl⟩ := hs.interrupted heq ht hdone hz
      have hzm : a.IsMove z := hs.moves z hzms
      have hsome : s.current ≠ none := by simp [hcur]
      rcases preemptionPoint_cases hpoint hsome with hyield | ⟨hcond, hmay⟩
      · have hfree : blocked s z.sym = false := by simp [blocked, hyield]
        obtain ⟨s', hstep, hafter, hnone⟩ := step_execute h ha hnc hzm hsim.length hsim.conflicts hleads.1.symm
          (Or.inr hcur) hfree (by simp [conditionalYield, hyield])
        refine ⟨_, s', .single hstep, accesses_eq_nil (Or.inl hyield),
          ⟨hafter.length.trans hsim.length, hafter.conflicts, ?_, ?_, fun t ht' => ?_, fun t hc => ?_⟩,
          Or.inl (hnone hyield)⟩
        · rw [hafter.locks]
          simpa [lockEffect, hyield] using hsim.locks
        · rw [hafter.conditionals]
          simpa [condEffect, hyield] using hsim.conditionals
        · by_cases htz : t = z.thread
          · subst htz
            exact Or.inr ⟨z, tail, hz, hyield, by rw [hafter.own]; exact hleads.2⟩
          · exact (hsim.ready t ht').frame (hafter.other t htz) rfl
        · rw [hnone hyield] at hc
          simp at hc
      · have hstep := step_attempt h ha hzm hsim.length hleads.1.symm hcur hcond hmay
        exact ⟨_, _, .single hstep, accesses_eq_nil (Or.inr hcond), hsim.suspend, Or.inl rfl⟩

/-- the thread makes the next move -/
theorem sim_execute (h : a.Plain) (ha : a.Numbered ids) (hnc : a.concurrent = false) (hs : a.Schedule fin ms)
    (heq : ms = done ++ y :: rest) (hsim : a.Sim fin done (y :: rest) s) (hleads : Leads (s.pos y.thread)
      (y :: movesOf y.thread rest) (fin y.thread)) (hcur : s.current = none ∨ s.current = some y.thread)
    (hmust : conditionalYield y.sym = true → mustSucceed s y.sym = true) :
    ∃ s', a.automaton.Step ⟨s, y.sym, s'⟩ ∧ a.Sim fin (done ++ [y]) rest s' := by
  have hy : a.IsMove y := hs.moves y (by rw [heq]; simp)
  have hfree : blocked s y.sym = false := by
    rw [blocked_eq hsim.locks hsim.conditionals]
    exact hs.free done y rest heq
  obtain ⟨s', hstep, hafter, -⟩ :=
    step_execute h ha hnc hy hsim.length hsim.conflicts hleads.1.symm hcur hfree hmust
  refine ⟨s', hstep, hafter.length.trans hsim.length, hafter.conflicts, fun v => ?_, fun v => ?_, fun t ht => ?_,
    fun t hc => ?_⟩
  · rw [hafter.locks, List.map_append, List.map_singleton, replay_snoc]
    exact mem_lockEffect (hsim.locks v)
  · rw [hafter.conditionals, List.map_append, List.map_singleton, replay_snoc]
    exact mem_condEffect (hsim.conditionals v)
  · by_cases hty : t = y.thread
    · subst hty
      exact Or.inl (by rw [hafter.own]; exact hleads.2)
    · exact (hsim.ready t ht).frame (hafter.other t hty) (movesOf_other (Ne.symm hty) rest).symm
  · rcases hafter.current with hnone | ⟨hown, hfinal, hstop⟩
    · rw [hnone] at hc
      simp at hc
    · rw [hown, Option.some.injEq] at hc
      subst hc
      rw [hafter.own]
      refine ⟨fun hnil => ?_, hleads.2, y, by simp, rfl⟩
      -- a thread without further moves has stopped or is in a final position
      have hend : y.dst = fin y.thread := by simpa [hnil, Leads] using hleads.2
      rcases hs.final y.thread hy.lt with hno | hf
      · exact hstop (hend.trans hno)
      · rw [← hend, hfinal] at hf
        exact absurd hf Bool.false_ne_true

/-- a yield that has been made already is passed over -/
theorem sim_skip (hsim : a.Sim fin done (y :: rest) s) (hcur : s.current = none) (hyield : y.sym.operation = .yield)
    (hleads : Leads (s.pos y.thread) (movesOf y.thread rest) (fin y.thread)) : a.Sim fin (done ++ [y]) rest s where
  length := hsim.length
  conflicts := hsim.conflicts
  locks := fun v => by
    rw [List.map_append, List.map_singleton, replay_snoc]
    simpa [lockBit, hyield] using hsim.locks v
  conditionals := fun v => by
    rw [List.map_append, List.map_singleton, replay_snoc]
    simpa [condBit, hyield] using hsim.conditionals v
  ready := fun t ht => by
    by_cases hty : t = y.thread
    · subst hty
      exact Or.inl hleads
    · exact (hsim.ready t ht).frame rfl (movesOf_other (Ne.symm hty) rest).symm
  running := fun t hc => by simp [hcur] at hc

/-- **One move of the schedule.** -/
theorem sim_step (h : a.Plain) (ha : a.Numbered ids) (hnc : a.concurrent = false) (hs : a.Schedule fin ms)
    (heq : ms = done ++ y :: rest) (hsim : a.Sim fin done (y :: rest) s) :
    ∃ r s', a.automaton.Path s r s' ∧ a.Sim fin (done ++ [y]) rest s' ∧
      accesses (Automaton.word r) = accesses [y.sym] := by
  have hy : a.IsMove y := hs.moves y (by rw [heq]; simp)
  obtain ⟨r, s1, hpath, hacc, hsim1, hcur⟩ := sim_release h ha hnc hs heq hsim
  have hmake : Leads (s1.pos y.thread) (y :: movesOf y.thread rest) (fin y.thread) →
      (s1.current = none ∨ s1.current = some y.thread) → (conditionalYield y.sym = true → mustSucceed s1 y.sym = true) →
      ∃ r s', a.automaton.Path s r s' ∧ a.Sim fin (done ++ [y]) rest s' ∧
        accesses (Automaton.word r) = accesses [y.sym] := by
    intro hleads hc hmust
    obtain ⟨s', hstep, hsim'⟩ := sim_execute h ha hnc hs heq hsim1 hleads hc hmust
    refine ⟨r ++ [⟨s1, y.sym, s'⟩], s', hpath.append (.single hstep), hsim', ?_⟩
    rw [Automaton.word_append, accesses_append, hacc]
    rfl
  rcases hcur with hnone | ⟨hown, hmust⟩
  · have hmust : conditionalYield y.sym = true → mustSucceed s1 y.sym = true := fun _ => by simp [mustSucceed, hnone]
    rcases hsim1.ready y.thread hy.lt with hleads | ⟨y', tail, hmoves, hyield, hleads⟩
    · rw [movesOf_own] at hleads
      exact hmake hleads (Or.inl hnone) hmust
    · rw [movesOf_own] at hmoves
      obtain ⟨rfl, rfl⟩ := List.cons.inj hmoves
      exact ⟨r, s1, hpath, sim_skip hsim1 hnone hyield hleads, by rw [hacc, accesses_eq_nil (Or.inl hyield)]⟩
  · obtain ⟨-, hleads, -⟩ := hsim1.running y.thread hown
    rw [movesOf_own] at hleads
    exact hmake hleads (Or.inr hown) hmust

/-- the rest of a schedule is followed to its end -/
theorem sim_run (h : a.Plain) (ha : a.Numbered ids) (hnc : a.concurrent = false) (hs : a.Schedule fin ms)
    (heq : ms = done ++ rest) (hsim : a.Sim fin done rest s) :
    ∃ r s', a.automaton.Path s r s' ∧ a.intIsFinalState s' = true ∧
      accesses (Automaton.word r) = accesses (rest.map Move.sym) := by
  induction rest generalizing done s with
  | nil =>
    refine ⟨[], s, .nil s, ?_, rfl⟩
    simp only [intIsFinalState, List.all_eq_true, List.mem_range, hsim.length, Bool.or_eq_true, beq_iff_eq]
    intro t ht
    rcases hsim.ready t ht with hleads | ⟨y, tail, hmoves, -⟩
    · have hend : s.pos t = fin t := hleads
      rw [hend]
      exact hs.final t ht
    · simp at hmoves
  | cons y rest ih =>
    obtain ⟨r, s1, hpath, hsim1, hacc⟩ := sim_step h ha hnc hs heq hsim
    obtain ⟨r', s', hpath', hfinal, hacc'⟩ := ih (by rw [heq]; simp) hsim1
    refine ⟨r ++ r', s', hpath.append hpath', hfinal, ?_⟩
    rw [Automaton.word_append, accesses_append, hacc, hacc', ← accesses_append, List.map_cons, List.singleton_append]

/-- **The preemption-free automaton follows a schedule.** -/
theorem schedule_accepts (h : a.Plain) (ha : a.Numbered ids) (hnc : a.concurrent = false) (hs : a.Schedule fin ms) :
    ∃ w, a.automaton.Accepts w ∧ accesses w = accesses (ms.map Move.sym) := by
  have hsim : a.Sim fin [] ms a.startState := by
    refine ⟨by simp [startState], rfl, by simp [startState], by simp [startState], fun t ht => Or.inl ?_,
      fun t ht => by simp [startState] at ht⟩
    rw [pos_startState ht]
    exact hs.leads t ht
  obtain ⟨r, s', hpath, hfinal, hacc⟩ := sim_run h ha hnc hs (List.nil_append ms).symm hsim
  exact ⟨Automaton.word r, ⟨r, s', run_iff.2 hpath, hfinal, rfl⟩, hacc⟩

end

end Liss.ConcurrentAutomaton
