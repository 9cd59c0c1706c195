/-
`abstraction/concurrent_state.h`, `abstraction/concurrent_automaton.h`, `abstraction/concurrent_automaton.cpp`: the
product of the thread automata.

With `concurrent` the automaton may switch threads after every step (preemptive semantics); without it `current` holds
the running thread until a yield, a blocked lock or wait, or a final position of the thread sets it back to
`no_thread` (preemption-free semantics). `applyBadTraceDnf` is the monitor of the locks found so far, filled by
`addForbiddenTraces`.

A step gives `none` where the code returns a null pointer and an `Exn` where it throws. Nothing catches the exception, so
a call of `int_successors` that `throws` ends the program; in `automaton` it has no successor.
-/
import Liss.Lib.Automaton
import Liss.Cfg.Program

namespace Liss

/-! ## States -/

/-- the part of a state that belongs to the synthesised locks -/
structure Monitor where
  locksviolated : List Bool
  /-- a `std::set`, in ascending order -/
  conflicts : List ConflictT
deriving DecidableEq, Repr

/-- `concurrent_state`; `current` is `none` for `no_thread`. The two bitsets are the sets of their members: variable
numbers of locks and conditionals are below 64, since the identifier store hands out no other. -/
structure ConcurrentState extends Monitor where
  threads : List ℤ
  current : Option ℕ := none
  reward : ℤ := 0
  conditionals : Finset ℕ := ∅
  locks : Finset ℕ := ∅
deriving DecidableEq

/-- `insert` into a `std::set<conflict_t>` -/
def ConflictT.insertIn (c : ConflictT) : List ConflictT → List ConflictT
  | [] => [c]
  | d :: l => if c.data < d.data then c :: d :: l else if c = d then d :: l else d :: ConflictT.insertIn c l

/-- `erase` -/
def ConflictT.eraseFrom (c : ConflictT) (l : List ConflictT) : List ConflictT := l.filter fun d => d ≠ c

/-- what a `reward_t`, which is an `int16_t`, keeps of a sum. The distances and costs of a CFG are integers: forward
paths have fewer edges than there are states, and `maxStates` is the highest `int16_t`. -/
def toReward (x : ℤ) : ℤ := x.bmod (2 ^ 16)

namespace ConcurrentState

/-- the position of a thread -/
def pos (s : ConcurrentState) (thread : ℕ) : ℤ := s.threads.getD thread 0

def setPos (s : ConcurrentState) (thread : ℕ) (p : ℤ) : ConcurrentState :=
  { s with threads := s.threads.set thread p }

@[simp] theorem length_setPos (s : ConcurrentState) (thread : ℕ) (p : ℤ) :
    (s.setPos thread p).threads.length = s.threads.length := by simp [setPos]

theorem pos_setPos (s : ConcurrentState) (t t' : ℕ) (p : ℤ) :
    (s.setPos t p).pos t' = if t = t' ∧ t < s.threads.length then p else s.pos t' := by
  simp only [pos, setPos, List.getD_eq_getElem?_getD, List.getElem?_set]
  by_cases h : t = t'
  · by_cases h' : t < s.threads.length
    · simp [← h, h']
    · simp [← h, h']
  · simp [h]

end ConcurrentState

/-! ## The automaton -/

/-- `conflict_info`: between a past symbol and `next` of the same thread a symbol of `conflict` must not happen;
`lockId` is `none` for -1 (terminate right away) -/
structure ConflictInfo where
  conflict : List Symbol
  next : Symbol
  lockId : Option ℕ
deriving DecidableEq, Repr

instance : Inhabited ConflictInfo := ⟨⟨[], Symbol.ofState 0 0, none⟩⟩

def ConflictInfo.nextThread (ci : ConflictInfo) : ℕ := ci.next.threadId

inductive Exn where
  | rangeError
deriving DecidableEq, Repr

abbrev LockList := List Symbol
abbrev LockLists := List LockList
abbrev LockSymbols := Cnf LockLists

structure ConcurrentAutomaton where
  threads : List AbstractCfg
  concurrent : Bool
  deadlock : Bool
  successorFilter : List Symbol := []
  conflicts : List ConflictInfo := []
  /-- an `unordered_multimap` from past symbols to indices of `conflicts` -/
  conflictMap : List (Symbol × ℕ) := []
  /-- bitsets over the lock ids, one for each clause with several locks -/
  locks : List (List Bool) := []
  locksSize : ℕ := 0

namespace ConcurrentAutomaton

/-- the constructor -/
def ofProgram (p : Program) (concurrent deadlock : Bool) : ConcurrentAutomaton :=
  { threads := p.minimisedThreads, concurrent := concurrent, deadlock := deadlock }

/-- `threads[i]` -/
def thread (a : ConcurrentAutomaton) (i : ℕ) : AbstractCfg := a.threads.getD i (AbstractCfg.empty i)

/-- `int_is_final_state` -/
def intIsFinalState (a : ConcurrentAutomaton) (s : ConcurrentState) : Bool :=
  (List.range s.threads.length).all fun i => s.pos i == noState || (a.thread i).intIsFinalState (s.pos i)

/-- `int_initial_states` -/
def intInitialStates (a : ConcurrentAutomaton) : List ConcurrentState :=
  let start : ConcurrentState :=
    { locksviolated := List.replicate a.locksSize false, conflicts := [], threads := List.replicate a.threads.length 0 }
  (List.range a.threads.length).foldl (fun states i =>
    (a.thread i).intInitialStates.flatMap fun init => states.map fun s => s.setPos i init.state) [start]

/-- `next_single` -/
def nextSingle (a : ConcurrentAutomaton) (s : ConcurrentState) (thread : ℕ) : List Symbol :=
  if s.pos thread ≠ noState then
    ((a.thread thread).intNextSymbols (s.pos thread)).filter fun sy =>
      a.successorFilter.isEmpty || sy.isEpsilon || sy.isIn a.successorFilter
  else []

/-- `int_next_symbols` -/
def intNextSymbols (a : ConcurrentAutomaton) (s : ConcurrentState) : List Symbol :=
  match s.current with
  | none => (List.range s.threads.length).flatMap (a.nextSingle s)
  | some t => a.nextSingle s t

/-! ### The monitor -/

/-- `tick_lock`; `none` when the lock is violated -/
def tickLock (a : ConcurrentAutomaton) (m : Monitor) (lockId : Option ℕ) : Option Monitor :=
  match lockId with
  | none => none
  | some lock =>
    if m.locksviolated.getD lock false then some m
    else
      let violated := m.locksviolated.set lock true
      if a.locks.any fun bad => (violated.zipWith (· && ·) bad) == bad then none
      else some { m with locksviolated := violated }

/-- `conflicts[c.payload()]` -/
def info (a : ConcurrentAutomaton) (c : ConflictT) : ConflictInfo := a.conflicts.getD c.payload default

/-- the loop body for a conflict that has not been seen yet -/
def visitClean (a : ConcurrentAutomaton) (sigma : Symbol) (cs : List ConflictT) (c : ConflictT) : List ConflictT :=
  if (a.info c).nextThread = sigma.threadId then c.eraseFrom cs
  else if sigma.isIn (a.info c).conflict then c.eraseFrom (c.set.insertIn cs)
  else cs

/-- the loop body for a conflict that has been seen -/
def visitTagged (a : ConcurrentAutomaton) (sigma : Symbol) (m : Monitor) (c : ConflictT) : Option Monitor :=
  if (a.info c).nextThread = sigma.threadId then
    (if sigma.equals (a.info c).next then a.tickLock m (a.info c).lockId else some m).map
      fun m => { m with conflicts := c.eraseFrom m.conflicts }
  else some m

/-- the registration of a new conflict -/
def register (cs : List ConflictT) (index : ℕ) : Option (List ConflictT) :=
  (ConflictT.ofIndex index).map fun c => c.insertIn cs

/-- `apply_bad_trace_dnf`. The set is visited in ascending order, so the untagged conflicts come first, and a conflict
that is tagged on the way is met again with the tagged ones. -/
def applyBadTraceDnf (a : ConcurrentAutomaton) (m : Monitor) (sigma : Symbol) : Except Exn (Option Monitor) :=
  if sigma.isRealEpsilon || sigma.operation == .tag then .ok (some m)
  else
    let cs := (m.conflicts.filter fun c => !c.test).foldl (a.visitClean sigma) m.conflicts
    match (cs.filter fun c => c.test).foldlM (a.visitTagged sigma) { m with conflicts := cs } with
    | none => .ok none
    | some m =>
      match ((a.conflictMap.filter fun e => e.1.equals sigma).map Prod.snd).foldlM register m.conflicts with
      | none => .error .rangeError
      | some cs => .ok (some { m with conflicts := cs })

/-- the pairs of neighbours of a list, epsilon symbols left out -/
def neighbours (list : LockList) : List (Symbol × Symbol) :=
  let l := list.filter fun sy => !sy.isRealEpsilon
  l.zip l.tail

/-- `front()->thread_id()` -/
def frontThread (list : LockList) : Option ℕ := list.head?.map Symbol.threadId

/-- the conflicts of one lock with the past symbol of each, in the order in which the loops make them -/
def lockConflicts (lock : LockLists) (lockId : Option ℕ) : List (Symbol × ConflictInfo) :=
  lock.flatMap fun it =>
    (neighbours it).flatMap fun pc =>
      (lock.filter fun it2 => frontThread it ≠ frontThread it2).filterMap fun it2 =>
        let conflicting := it2.filter fun sy => !sy.isRealEpsilon
        if conflicting.isEmpty then none else some (pc.1, ⟨conflicting, pc.2, lockId⟩)

/-- the loop body for one lock of a clause -/
def addLock (multiple : Bool) (a : ConcurrentAutomaton) (lock : LockLists) : ConcurrentAutomaton :=
  let new := lockConflicts lock (if multiple then some a.locksSize else none)
  let a := { a with
    conflicts := a.conflicts ++ new.map Prod.snd
    conflictMap := a.conflictMap ++ new.mapIdx fun i pc => (pc.1, a.conflicts.length + i) }
  if multiple then
    { a with locks := a.locks.modify (a.locks.length - 1) (· ++ [true]), locksSize := a.locksSize + 1 }
  else a

/-- the loop body for one clause -/
def addClause (a : ConcurrentAutomaton) (lockd : Disj LockLists) : ConcurrentAutomaton :=
  let multiple := decide (lockd.length > 1)
  let a := if multiple then { a with locks := a.locks ++ [List.replicate a.locksSize false] } else a
  lockd.foldl (addLock multiple) a

/-- `resize(n, false)` -/
def resize (n : ℕ) (bits : List Bool) : List Bool := bits.take n ++ List.replicate (n - bits.length) false

/-- `add_forbidden_traces` -/
def addForbiddenTraces (a : ConcurrentAutomaton) (newLocks : LockSymbols) : ConcurrentAutomaton :=
  let a := newLocks.foldl addClause a
  { a with locks := a.locks.map (resize a.locksSize) }

/-! ### Steps -/

/-- the step is not a preemption point here: the thread is being scheduled, or may not be switched -/
def mustSucceed (s : ConcurrentState) (sigma : Symbol) : Bool :=
  s.current.isNone || (sigma.assume && !assumesAllowSwitch) || sigma.synthesised

/-- the test of the first `switch`: the lock is taken, or the condition of the wait does not hold -/
def blocked (s : ConcurrentState) (sigma : Symbol) : Bool :=
  match sigma.operation with
  | .waitReset | .wait => sigma.var ∉ s.conditionals
  | .waitNot => sigma.var ∈ s.conditionals
  | .lock => sigma.var ∈ s.locks
  | _ => false

/-- the operations of the second `switch` -/
def conditionalYield (sigma : Symbol) : Bool :=
  match sigma.operation with
  | .waitReset | .wait | .waitNot | .lock => true
  | _ => false

/-- the third `switch`: the new state and whether the thread makes progress -/
def applyOperation (s : ConcurrentState) (sigma : Symbol) : ConcurrentState × Bool :=
  let cloned := { s with current := some sigma.threadId }
  let yielded := { s with current := none }
  match sigma.operation with
  | .read | .write | .epsilon | .tag => (cloned, true)
  | .lock => if sigma.var ∈ s.locks then (yielded, false) else ({ cloned with locks := insert sigma.var s.locks }, true)
  | .unlock => ({ cloned with locks := s.locks.erase sigma.var }, true)
  | .notify => ({ cloned with conditionals := insert sigma.var s.conditionals }, true)
  | .reset => ({ cloned with conditionals := s.conditionals.erase sigma.var }, true)
  | .waitReset =>
    if sigma.var ∉ s.conditionals then (yielded, false)
    else ({ cloned with conditionals := s.conditionals.erase sigma.var }, true)
  | .wait => if sigma.var ∉ s.conditionals then (yielded, false) else (cloned, true)
  | .waitNot => if sigma.var ∈ s.conditionals then (yielded, false) else (cloned, true)
  | .yield => (yielded, true)

/-- `apply_symbol`: `none` when the symbol cannot be applied -/
def applySymbol (a : ConcurrentAutomaton) (s : ConcurrentState) (sigma : Symbol) :
    Except Exn (Option (ConcurrentState × Bool)) :=
  if mustSucceed s sigma && blocked s sigma then .ok none
  else if condyieldIsAlwaysYield && conditionalYield sigma && !mustSucceed s sigma then
    .ok (some ({ s with current := none }, false))
  else
    let (cloned, progress) := applyOperation s sigma
    match a.applyBadTraceDnf cloned.toMonitor sigma with
    | .error e => .error e
    | .ok none => .ok none
    | .ok (some m) => .ok (some ({ cloned with toMonitor := m }, progress))

/-- `deadlock_states` -/
def deadlockStates (a : ConcurrentAutomaton) (s : ConcurrentState) (thread : ℕ) : List ConcurrentState :=
  if a.deadlock && (a.thread thread).intIsFinalState (s.pos thread) then [s.setPos thread noState] else []

/-- the state after the thread has moved to the position `p` -/
def moveThread (a : ConcurrentAutomaton) (next : ConcurrentState) (thread : ℕ) (p : RewardState) : ConcurrentState :=
  { next.setPos thread p.state with
    reward := toReward (next.reward + p.reward)
    current := if a.concurrent || (a.thread thread).intIsFinalState p.state then none else next.current }

/-- `int_successors`. The thread automaton gives at most one successor (`AbstractCfg.intSuccessors_length_le`), so
that no copy is shared between two of them. -/
def intSuccessors (a : ConcurrentAutomaton) (s : ConcurrentState) (sigma : Symbol) :
    Except Exn (List ConcurrentState) :=
  let thread := sigma.threadId
  if s.current ≠ none ∧ s.current ≠ some thread then .ok []
  else
    match a.applySymbol s sigma with
    | .error e => .error e
    | .ok none => .ok []
    | .ok (some (next, progress)) =>
      if !progress then .ok [next]
      else .ok (((a.thread thread).intSuccessors (s.pos thread) sigma).flatMap fun p =>
        a.moveThread next thread p :: a.deadlockStates (a.moveThread next thread p) thread)

/-- the call of `int_successors` throws -/
def throws (a : ConcurrentAutomaton) (s : ConcurrentState) (sigma : Symbol) : Bool :=
  match a.intSuccessors s sigma with
  | .ok _ => false
  | .error _ => true

/-- the automaton that the algorithms explore -/
def automaton (a : ConcurrentAutomaton) : Automaton ConcurrentState Symbol where
  initial := a.intInitialStates
  next := a.intNextSymbols
  succ s sigma :=
    match a.intSuccessors s sigma with
    | .ok l => l
    | .error _ => []
  final := a.intIsFinalState

end ConcurrentAutomaton

end Liss
