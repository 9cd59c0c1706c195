/-
`abstraction/compressed_automaton.h`, `abstraction/compressed_automaton.cpp`: an automaton whose states and symbols are
machine integers, and its construction from an automaton that computes its states on demand.

States are compared by `key` (`concurrent_state::operator==`), symbols by their equality. The maps are association lists
to which an entry is only ever appended. `std::priority_queue` hands out some element of the frontier
(`FrontierQueue`). An assertion that fails gives `none`, as does fuel that runs out.

`independence_` is not used by the construction and is left out; what `get_wrapper` gives is in `WrapperAutomaton`.
-/
import Liss.Lib.Keyed
import Liss.Lib.Numbering

namespace Liss

open Liss.Numbering

/-- `com_symbol` -/
abbrev ComSymbol := UInt16

/-- `com_state` -/
abbrev ComState := UInt32

structure CompressedAutomaton (Sym : Type*) where
  successorFilter : List ComSymbol := []
  initialStates : List ComState := []
  final : List Bool := []
  epsilon : List Bool := []
  symbolTranslation : List Sym := []
  transitions : List (List (ComSymbol × List ComState)) := []
  symbolMap : List (Sym × ComSymbol) := []

namespace CompressedAutomaton

variable {Sym : Type*} (c : CompressedAutomaton Sym)

/-- `int_is_final_state` -/
def intIsFinalState (state : ComState) : Bool := c.final.getD state.toNat false

/-- `int_initial_states` -/
def intInitialStates : List ComState := c.initialStates

/-- `transitions[state]` -/
def row (state : ComState) : List (ComSymbol × List ComState) := c.transitions.getD state.toNat []

/-- `int_successors` -/
def intSuccessors (state : ComState) (sigma : ComSymbol) : List ComState := ((c.row state).lookup sigma).getD []

/-- `int_is_epsilon` -/
def intIsEpsilon (symbol : ComSymbol) : Bool := c.epsilon.getD symbol.toNat false

/-- `int_next_symbols` -/
def intNextSymbols (state : ComState) : List ComSymbol :=
  ((c.row state).map Prod.fst).filter fun symbol =>
    c.successorFilter.isEmpty || c.intIsEpsilon symbol || c.successorFilter.contains symbol

def automaton : Automaton ComState ComSymbol where
  initial := c.intInitialStates
  next := c.intNextSymbols
  succ := c.intSuccessors
  final := c.intIsFinalState

end CompressedAutomaton

/-! ## `from_concurrent_automaton` -/

/-- `std::priority_queue`: `top` and `pop` for a non-empty queue -/
structure FrontierQueue (S : Type*) where
  pop : S → List S → S × List S
  perm : ∀ s frontier, ((pop s frontier).1 :: (pop s frontier).2).Perm (s :: frontier)

/-- an element with the highest reward, which is how `operator<` orders states -/
def FrontierQueue.best {S : Type*} (reward : S → ℤ) : S → List S → S × List S
  | s, [] => (s, [])
  | s, t :: frontier =>
    let (top, rest) := best reward t frontier
    if reward s < reward top then (top, s :: rest) else (s, top :: rest)

theorem FrontierQueue.perm_best {S : Type*} (reward : S → ℤ) (s : S) (frontier : List S) :
    ((best reward s frontier).1 :: (best reward s frontier).2).Perm (s :: frontier) := by
  induction frontier generalizing s with
  | nil => exact List.Perm.refl _
  | cons t frontier ih =>
    simp only [best]
    split_ifs
    · exact (List.Perm.swap _ _ _).trans ((ih t).cons s)
    · exact (ih t).cons s

/-- the queue of the code -/
def FrontierQueue.ofReward {S : Type*} (reward : S → ℤ) : FrontierQueue S := ⟨best reward, perm_best reward⟩

/-- the local variables of the construction -/
structure Compression (S K Sym : Type*) where
  result : CompressedAutomaton Sym := {}
  states : List (K × ComState) := []
  seen : List K := []
  frontier : List S := []

namespace Compression

variable {S K Sym : Type*} [DecidableEq K] [DecidableEq Sym]

/-- the loop body for an initial state -/
def addInitial (key : S → K) (b : Compression S K Sym) (s : S) : Compression S K Sym :=
  let sid := UInt32.ofNat b.states.length
  { result := { b.result with
      initialStates := b.result.initialStates ++ [sid]
      final := b.result.final ++ [false]
      transitions := b.result.transitions ++ [[]] }
    states := insertNew (key s) sid b.states
    seen := b.seen.insert (key s)
    frontier := s :: b.frontier }

/-- the loop body for a successor -/
def addSuccessor (key : S → K) (p : Compression S K Sym × List ComState) (next : S) :
    Compression S K Sym × List ComState :=
  let (b, successors) := p
  let states := insertNew (key next) (UInt32.ofNat b.states.length) b.states
  let result :=
    if (b.states.lookup (key next)).isNone then
      { b.result with
        final := b.result.final ++ [false]
        transitions := b.result.transitions ++ [[]] }
    else b.result
  let nextid := (states.lookup (key next)).getD 0
  ({ result := result
     states := states
     seen := b.seen.insert (key next)
     frontier := if key next ∈ b.seen then b.frontier else next :: b.frontier }, successors ++ [nextid])

/-- the identifier of a symbol, which gets one if it has none, and its epsilon flag -/
def addSymbol (isEpsilon : Sym → Bool) (r : CompressedAutomaton Sym) (sy : Sym) : CompressedAutomaton Sym × ComSymbol :=
  let symbols := insertNew sy (UInt16.ofNat r.symbolMap.length) r.symbolMap
  let syid := (symbols.lookup sy).getD 0
  let r :=
    if (r.symbolMap.lookup sy).isNone then
      { r with
        symbolMap := symbols
        symbolTranslation := r.symbolTranslation ++ [sy]
        epsilon := r.epsilon ++ [false] }
    else { r with symbolMap := symbols }
  (if isEpsilon sy then { r with epsilon := r.epsilon.set syid.toNat true } else r, syid)

/-- the loop body for a symbol -/
def visitSymbol (A : Automaton S Sym) (key : S → K) (isEpsilon : Sym → Bool) (s : S) (sid : ComState)
    (b : Compression S K Sym) (sy : Sym) : Compression S K Sym :=
  let (result, syid) := addSymbol isEpsilon b.result sy
  let (b, successors) := (A.succ s sy).foldl (addSuccessor key) ({ b with result := result }, [])
  if 0 < successors.length then
    { b with result := { b.result with
      transitions := b.result.transitions.modify sid.toNat (insertNew syid successors) } }
  else b

/-- the loop body for a state of the frontier -/
def visit (A : Automaton S Sym) (key : S → K) (isEpsilon : Sym → Bool) (b : Compression S K Sym) (s : S) :
    Option (Compression S K Sym) :=
  match b.states.lookup (key s) with
  | none => none
  | some sid =>
    let result := if A.final s then { b.result with final := b.result.final.set sid.toNat true } else b.result
    some ((A.next s).foldl (visitSymbol A key isEpsilon s sid) { b with result := result })

/-- the main loop -/
def explore (A : Automaton S Sym) (key : S → K) (isEpsilon : Sym → Bool) (queue : FrontierQueue S) :
    ℕ → Compression S K Sym → Option (Compression S K Sym)
  | 0, _ => none
  | fuel + 1, b =>
    match b.frontier with
    | [] => some b
    | first :: rest =>
      let (s, frontier) := queue.pop first rest
      match visit A key isEpsilon { b with frontier := frontier } s with
      | none => none
      | some b => explore A key isEpsilon queue fuel b

/-- the variables before the loops: the symbols of `concurrent` keep their identifiers -/
def start (S K : Type*) (concurrent : CompressedAutomaton Sym) : Compression S K Sym where
  result :=
    { symbolTranslation := concurrent.symbolTranslation
      epsilon := concurrent.epsilon
      symbolMap := (numbered UInt16.ofNat concurrent.symbolTranslation).foldl (fun m p => insertNew p.1 p.2 m) [] }

end Compression

/-- `from_concurrent_automaton`; without a second argument `concurrent` is an empty automaton -/
def fromConcurrentAutomaton {S K Sym : Type*} [DecidableEq K] [DecidableEq Sym] (A : Automaton S Sym) (key : S → K)
    (isEpsilon : Sym → Bool) (queue : FrontierQueue S) (concurrent : CompressedAutomaton Sym) (fuel : ℕ) :
    Option (CompressedAutomaton Sym) :=
  let b := A.initial.foldl (Compression.addInitial key) (Compression.start S K concurrent)
  (Compression.explore A key isEpsilon queue fuel b).map Compression.result

end Liss
