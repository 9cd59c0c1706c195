/-
`synthesis/reorderings.h`, `synthesis/reorderings.cpp`: the constraints on the reorderings of a trace.

A trace is split into locations, one for each symbol; `thread_order`, `distinct`, `locks`, `conditionals`, `sequential`
and `synth_locks` are the constraints that are built over their integer constants and the final location.

`prepare_trace` gathers the locations thread by thread (`traversal`). Where an unlock is met before any lock of its
variable, `lockings[var].back()` reads an empty list; this is `none`.
-/
import Mathlib.Data.List.GetD
import Liss.Abstraction.ConcurrentAutomaton
import Liss.Lib.Ordered
import Liss.Synthesis.Constraint

namespace Liss.Synthesis

/-- `strace.trace` after `split_trace` -/
def splitTrace (trace : List Symbol) : List TraceLocation := trace.mapIdx fun i symbol => ⟨symbol, i⟩

/-- `threaded_trace[t]` -/
def threadedTrace (trace : List Symbol) (t : ℕ) : List TraceLocation :=
  (splitTrace trace).filter fun l => l.threadId = t

/-- the integer constant of `final_state` -/
def finalState (trace : List Symbol) : ℕ := trace.length

/-- the locations in the order in which the loops of `prepare_trace` visit them -/
def traversal (threads : ℕ) (trace : List Symbol) : List TraceLocation :=
  (List.range threads).flatMap (threadedTrace trace)

/-! ## `prepare_trace` -/

/-- `seq_condition`: there is no context switch before the location -/
def seqCondition (l : TraceLocation) : Bool :=
  match l.symbol.operation with
  | .lock => l.symbol.synthesised
  | .waitReset | .wait | .waitNot => l.symbol.assume && !assumesAllowSwitch
  | .yield => false
  | .unlock | .notify | .reset | .read | .write | .epsilon | .tag => true

/-- the locations of a thread with the one before each -/
def steps (trace : List Symbol) (t : ℕ) : List (TraceLocation × TraceLocation) :=
  (threadedTrace trace t).zip (threadedTrace trace t).tail

/-- `sequential` -/
def sequential (threads : ℕ) (trace : List Symbol) : Expr := fun a =>
  (List.range threads).all fun t => (steps trace t).all fun pl =>
    !seqCondition pl.2 || decide (a pl.2.position = a pl.1.position + 1)

/-- `thread_order` -/
def threadOrder (threads : ℕ) (trace : List Symbol) : Expr := fun a =>
  (List.range threads).all fun t =>
    ((steps trace t).all fun pl => decide (a pl.1.position < a pl.2.position)) &&
      (threadedTrace trace t).getLast?.all fun l => decide (a l.position < a (finalState trace))

/-- `distinct`, over all locations and the final one -/
def distinct (trace : List Symbol) : Expr := fun a =>
  decide ((List.range (trace.length + 1)).Pairwise fun i j => a i ≠ a j)

/-- the locations of a variable with one of the operations: `reads`, `writes`, `waits`, `resets` and `notifies` -/
def gather (threads : ℕ) (trace : List Symbol) (operations : List OpClass) (var : ℕ) : List TraceLocation :=
  (traversal threads trace).filter fun l => l.symbol.var = var && decide (l.symbol.operation ∈ operations)

def waits (threads : ℕ) (trace : List Symbol) : ℕ → List TraceLocation :=
  gather threads trace [.waitReset, .wait, .waitNot]

def resets (threads : ℕ) (trace : List Symbol) : ℕ → List TraceLocation := gather threads trace [.waitReset, .reset]

def notifies (threads : ℕ) (trace : List Symbol) : ℕ → List TraceLocation := gather threads trace [.notify]

/-- `lock_pair`; `none` is the null pointer -/
structure LockPair where
  lock : TraceLocation
  unlock : Option TraceLocation
deriving DecidableEq, Repr

/-- `lockings[var].back().unlock = loc` -/
def setUnlock (l : TraceLocation) : List LockPair → Option (List LockPair)
  | [] => none
  | [pr] => some [{ pr with unlock := some l }]
  | pr :: prs => (setUnlock l prs).map (pr :: ·)

/-- what a location adds to `lockings[var]` -/
def addLocking (var : ℕ) (prs : List LockPair) (l : TraceLocation) : Option (List LockPair) :=
  if l.symbol.var ≠ var then some prs
  else
    match l.symbol.operation with
    | .lock => some (prs ++ [⟨l, none⟩])
    | .unlock => setUnlock l prs
    | _ => some prs

/-- `lockings[var]` -/
def lockings (threads : ℕ) (trace : List Symbol) (var : ℕ) : Option (List LockPair) :=
  (traversal threads trace).foldlM (addLocking var) []

/-- where the section of a lock ends -/
def LockPair.endOf (trace : List Symbol) (pr : LockPair) : ℕ := (pr.unlock.map (·.position)).getD (finalState trace)

/-- the sections of one lock exclude each other; the lists are compared by iterator, that is by place -/
def exclusive (trace : List Symbol) (prs : List LockPair) : Expr := fun a =>
  prs.zipIdx.all fun it => prs.zipIdx.all fun it2 =>
    it.2 == it2.2 || decide (a it.1.lock.position > a (it2.1.endOf trace)) ||
      decide (a it.1.lock.position < a it2.1.lock.position)

/-- `locks` -/
def locks (ids : Identifiers) (threads : ℕ) (trace : List Symbol) : Option Expr :=
  ((List.range ids.noLocks).mapM (lockings threads trace)).map fun lockings => fun a =>
    lockings.all fun prs => exclusive trace prs a

/-- a wait: a notify comes before, and no reset in between (`wait_reset` is a reset itself, which is not counted) -/
def waitCondition (threads : ℕ) (trace : List Symbol) (i : ℕ) (it : TraceLocation) : Expr := fun a =>
  (notifies threads trace i).any fun itn => decide (a itn.position < a it.position) &&
    (resets threads trace i).all fun itr =>
      it.position == itr.position || decide (a itr.position < a itn.position) || decide (a itr.position > a it.position)

/-- a `wait_not`: it comes before all notifies, or a reset comes before and no notify in between -/
def waitNotCondition (threads : ℕ) (trace : List Symbol) (i : ℕ) (it : TraceLocation) : Expr := fun a =>
  ((notifies threads trace i).all fun itn => decide (a it.position < a itn.position)) ||
    (resets threads trace i).any fun itr => decide (a itr.position < a it.position) &&
      (notifies threads trace i).all fun itn =>
        decide (a itn.position < a itr.position) || decide (a itn.position > a it.position)

/-- `conditionals` -/
def conditionals (ids : Identifiers) (threads : ℕ) (trace : List Symbol) : Expr := fun a =>
  (List.range ids.noConditionals).all fun i => (waits threads trace i).all fun it =>
    if it.symbol.operation ≠ .waitNot then waitCondition threads trace i it a
    else waitNotCondition threads trace i it a

/-! ## `synth_locks` -/

/-- how long symbols of the trace go on to match symbols of a list -/
def matchLength : List Symbol → List Symbol → ℕ
  | s :: ss, y :: ys => if s.equals y then matchLength ss ys + 1 else 0
  | _, _ => 0

/-- `used[i..i+k] = true` -/
def markUsed (used : ℕ → Bool) (i k : ℕ) : ℕ → Bool := fun j => used j || (decide (i ≤ j) && decide (j ≤ i + k))

/-- the inner loop of `find_lock_locs` over the symbols of the thread, for the list from `itsy` on; it runs at most
`fuel` times. The result are the matches that are longer than one symbol. -/
def scanMatches (thread : List Symbol) (itsy : Symbol) (rest : List Symbol) :
    ℕ → ℕ → (ℕ → Bool) → List (ℕ × ℕ) → (ℕ → Bool) × List (ℕ × ℕ)
  | 0, _, used, result => (used, result)
  | fuel + 1, i, used, result =>
    match thread[i]? with
    | none => (used, result)
    | some s =>
      if s.equals itsy && !used i then
        let k := matchLength (thread.drop (i + 1)) rest
        scanMatches thread itsy rest fuel (i + k + 1) (markUsed used i k)
          (if k = 0 then result else result ++ [(i, i + k)])
      else scanMatches thread itsy rest fuel (i + 1) used result

/-- the outer loop of `find_lock_locs` -/
def scanList (thread : List Symbol) : List Symbol → (ℕ → Bool) → List (ℕ × ℕ) → List (ℕ × ℕ)
  | [], _, result => result
  | itsy :: rest, used, result =>
    let r := scanMatches thread itsy rest thread.length 0 used result
    scanList thread rest r.1 r.2

/-- `find_lock_locs`, as positions in the thread -/
def findLockMatches (trace : List Symbol) (lock : LockList) : List (ℕ × ℕ) :=
  match lock with
  | [] | [_] => []
  | front :: rest =>
    scanList ((threadedTrace trace front.threadId).map TraceLocation.symbol) (front :: rest) (fun _ => false) []

/-- `find_lock_locs` -/
def findLockLocs (trace : List Symbol) (lock : LockList) : List (TraceLocation × TraceLocation) :=
  let thread := threadedTrace trace ((lock.head?.map Symbol.threadId).getD 0)
  (findLockMatches trace lock).filterMap fun ie =>
    match thread[ie.1]?, thread[ie.2]? with
    | some start, some fin => some (start, fin)
    | _, _ => none

/-- `find_locs` -/
def findLocs (trace : List Symbol) (sym : Symbol) : List TraceLocation :=
  (threadedTrace trace sym.threadId).filter fun l => l.symbol.equals sym

/-- the constraint of one lock -/
def lockExpr (trace : List Symbol) (lock : LockLists) : Expr := fun a =>
  lock.all fun it => lock.all fun it2 =>
    ConcurrentAutomaton.frontThread it == ConcurrentAutomaton.frontThread it2 ||
      it2.all fun sym => (findLockLocs trace it).all fun l => (findLocs trace sym).all fun l2 =>
        decide (a l2.position < a l.1.position) || decide (a l.2.position < a l2.position)

/-- `synth_locks` -/
def synthLocks (trace : List Symbol) (synthesisedLocks : LockSymbols) : Expr := fun a =>
  synthesisedLocks.all fun lockd => lockd.any fun lock => lockExpr trace lock a

end Liss.Synthesis
