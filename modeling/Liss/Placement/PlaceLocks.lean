/-
`placement/place_locks.h`, `placement/place_locks.cpp`: the hard constraints of lock placement, as a check of an
assignment of the functions `lock_b`, `unlock_b`, `lock_a`, `unlock_a` and `inl`.

Locks are the numbers below `maxLocks`. The predecessors of a state are kept in an `unordered_set`, whose iteration
order is unspecified; it is a parameter (`HashOrder`). The loop over the predecessors runs from the first forward
predecessor to the end of the other set; both ends are the null node, so it visits the forward predecessors.

The soft constraints and the reading of the solver's model are left out.
-/
import Liss.Synthesis.TraceHelpers

namespace Liss

/-- an interpretation of the five functions -/
structure LockAssignment where
  lockB : Location → ℕ → Bool
  unlockB : Location → ℕ → Bool
  lockA : Location → ℕ → Bool
  unlockA : Location → ℕ → Bool
  inl : Location → ℕ → Bool

/-- in what order an `unordered_set` is visited into which the numbers of the list have been inserted -/
structure HashOrder where
  visit : List ℕ → List ℕ
  perm : ∀ l, (visit l).Perm l

namespace PlaceLocks

variable (m : LockAssignment) (locks : List ℕ) (ord : HashOrder)

/-- `inle`: the lock status after the instruction -/
def inle (x : Location) (l : ℕ) : Bool := (m.inl x l && !m.unlockA x l) || m.lockA x l

/-- `implies` -/
def imp (a b : Bool) : Bool := !a || b

/-- the states `1..no_states` -/
def stateIds (c : AbstractCfg) : List ℕ := List.range' 1 c.noStates

/-- `predecessors[i]`, in the order of insertion -/
def predecessors (c : AbstractCfg) (i : ℕ) : List ℕ :=
  (stateIds c).filter fun j => (c.getSuccessors j).any fun e => e.dst = i

/-- `predecessors_forward[i]` -/
def predecessorsForward (c : AbstractCfg) (i : ℕ) : List ℕ :=
  (stateIds c).filter fun j => (c.getSuccessors j).any fun e => e.dst = i && !e.backEdge

/-- the locks up to and with `lock`, in the order of the lock vector -/
def upTo (lock : ℕ) : List ℕ := (locks.takeWhile fun lb => lb ≠ lock) ++ [lock]

/-- `lock_order(lc, lock, location, predecessor)` -/
def lockOrderBefore (lock : ℕ) (location predecessor : Location) : Bool :=
  (upTo locks lock).all fun lb => imp (m.lockB location lock) (!m.inl predecessor lb && !m.lockA predecessor lb)

/-- `lock_order(lc, lock, location)` -/
def lockOrderAfter (lock : ℕ) (location : Location) : Bool :=
  (upTo locks lock).all fun lb => imp (m.lockA location lock) (!m.inl location lb)

/-! ## `lock_consistancy`, for state `i` of thread `t` and lock `l` -/

variable (c : AbstractCfg) (t i l : ℕ)

def consLoc : Bool :=
  ((c.getState i).lockBefore.isSome || (!m.lockB ⟨t, i⟩ l && !m.unlockB ⟨t, i⟩ l)) &&
    ((c.getState i).lockAfter.isSome || (!m.lockA ⟨t, i⟩ l && !m.unlockA ⟨t, i⟩ l))

def consBasic : Bool := (!m.lockA ⟨t, i⟩ l || !m.unlockA ⟨t, i⟩ l) && (!m.lockB ⟨t, i⟩ l || !m.unlockB ⟨t, i⟩ l)

def consPreemption : Bool := imp ((c.getState i).action.any Symbol.isUnlockablePoint) (!m.inl ⟨t, i⟩ l)

def consFunctions : Bool :=
  (c.getState i).returnState = noState || m.inl ⟨t, i⟩ l == m.inl ⟨t, (c.getState i).returnState⟩ l

/-- the conjuncts of `inl_def`, `cons_lockorder` and `cons_unl` that look at the predecessors -/
def consPredecessors : Bool :=
  match ord.visit (predecessorsForward c i) with
  | [] => m.inl ⟨t, i⟩ l == m.lockB ⟨t, i⟩ l && !m.unlockB ⟨t, i⟩ l
  | firstPred :: rest =>
    (m.inl ⟨t, i⟩ l == (m.lockB ⟨t, i⟩ l || (!m.unlockB ⟨t, i⟩ l && inle m ⟨t, firstPred⟩ l))) &&
      (firstPred :: rest).all fun j =>
        lockOrderBefore m locks l ⟨t, i⟩ ⟨t, j⟩ &&
          imp (m.unlockB ⟨t, i⟩ l) (m.inl ⟨t, j⟩ l && !m.unlockA ⟨t, j⟩ l)

/-- the conjuncts about what follows the instruction -/
def consAfter : Bool := lockOrderAfter m locks l ⟨t, i⟩ && imp (m.unlockA ⟨t, i⟩ l) (m.inl ⟨t, i⟩ l)

def consJoin : Bool :=
  match ord.visit (predecessors c i) with
  | [] => true
  | firstPred :: rest => rest.all fun j => inle m ⟨t, firstPred⟩ l == inle m ⟨t, j⟩ l

def lockConsistancyAt : Bool :=
  consLoc m c t i l && consBasic m t i l && consPreemption m c t i l && consFunctions m c t i l &&
    consPredecessors m locks ord c t i l && consAfter m locks t i l && consJoin m ord c t i l

/-! ## All constraints -/

variable (threads : List AbstractCfg)

/-- `lock_consistancy` -/
def lockConsistancy : Bool :=
  threads.zipIdx.all fun ct =>
    (stateIds ct.1).all fun i => locks.all fun l => lockConsistancyAt m locks ord ct.1 ct.2 i l

/-- the positions of a source location -/
def positionsOf (f : State → Option ℕ) (source : ℕ) : List Location :=
  threads.zipIdx.flatMap fun ct =>
    ((stateIds ct.1).filter fun i => f (ct.1.getState i) = some source).map fun i => ⟨ct.2, i⟩

/-- all source locations -/
def sources (f : State → Option ℕ) : List ℕ :=
  threads.flatMap fun c => (stateIds c).filterMap fun i => f (c.getState i)

/-- one half of `lock_sameinstr`: positions of one source location are locked and unlocked the same way -/
def sameAt (f : State → Option ℕ) (lock unlock : Location → ℕ → Bool) : Bool :=
  (sources threads f).all fun source =>
    match positionsOf threads f source with
    | [] => true
    | first :: rest => locks.all fun l => rest.all fun x => lock first l == lock x l && unlock first l == unlock x l

/-- `lock_sameinstr` -/
def lockSameinstr : Bool :=
  sameAt locks threads State.lockAfter m.lockA m.unlockA && sameAt locks threads State.lockBefore m.lockB m.unlockB

/-- `add_constraints` -/
def addConstraints : Bool := lockConsistancy m locks ord threads && lockSameinstr m locks threads

/-- `locked_together`; `lockIds k` is the lock of clause `k` -/
def lockedTogether (lockIds : ℕ → ℕ) (locksToPlace : LockSymbols) : Bool :=
  locksToPlace.zipIdx.all fun dk =>
    dk.1.any fun lplaces => lplaces.all fun list => list.all fun pl => m.inl pl.loc (lockIds dk.2)

end PlaceLocks

end Liss
