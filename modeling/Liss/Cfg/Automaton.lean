/-
`cfg/automaton.h`, `cfg/automaton.cpp`: the automaton of one thread.

A position is an int16: `k > 0` means before state k, `-k` after state k (only when k has several successors or none;
a single successor is entered at once). The start position is after state 1. The words are the actions of the
visited states and the tags of the branches taken.
-/
import Liss.Cfg.AbstractCfg

namespace Liss

/-- `reward_state` -/
structure RewardState where
  reward : ℤ
  state : ℤ
deriving DecidableEq, Repr

/-- `equal_to<psymbol>` between a possibly null pointer and a symbol -/
def sameSymbol (s : Option Symbol) (sigma : Symbol) : Bool := s.any (fun t => t.equals sigma)

namespace AbstractCfg

/-- `int_is_final_state` -/
def intIsFinalState (c : AbstractCfg) (state : ℤ) : Bool :=
  if state ≥ 0 then (c.getState state.toNat).final
  else (c.getSuccessors (-state).toNat).any fun e => e.tag.isNone && (c.getState e.dst).final

/-- where the thread is after the action of state `id` -/
def afterAction (c : AbstractCfg) (id : ℕ) : ℤ :=
  match c.getSuccessors id with
  | [e] => e.dst
  | _ => -id

/-- the loop of `int_successors` over the edges that leave a passed state: the first edge that matches -/
def edgeSuccessors (c : AbstractCfg) (sigma : Symbol) : List Edge → List RewardState
  | [] => []
  | e :: es =>
    if sameSymbol e.tag sigma then [⟨-e.cost, e.dst⟩]
    else if sameSymbol (c.getState e.dst).action sigma then
      [⟨if -e.cost = 0 then 1 else -e.cost, c.afterAction e.dst⟩]
    else edgeSuccessors c sigma es

/-- `int_successors` -/
def intSuccessors (c : AbstractCfg) (state : ℤ) (sigma : Symbol) : List RewardState :=
  if state < 0 then c.edgeSuccessors sigma (c.getSuccessors (-state).toNat)
  else if sameSymbol (c.getState state.toNat).action sigma then [⟨1, c.afterAction state.toNat⟩]
  else []

/-- the symbol that an edge offers: its tag, or else the action of its target -/
def edgeSymbol (c : AbstractCfg) (e : Edge) : Option Symbol := e.tag <|> (c.getState e.dst).action

/-- `int_next_symbols` -/
def intNextSymbols (c : AbstractCfg) (state : ℤ) : List Symbol :=
  if state < 0 then (c.getSuccessors (-state).toNat).filterMap c.edgeSymbol
  else (c.getState state.toNat).action.toList

/-- `int_initial_states` -/
def intInitialStates (_ : AbstractCfg) : List RewardState := [⟨0, -1⟩]

/-- a symbol has at most one successor position -/
theorem intSuccessors_length_le (c : AbstractCfg) (state : ℤ) (sigma : Symbol) :
    (c.intSuccessors state sigma).length ≤ 1 := by
  have hedge : ∀ es, (c.edgeSuccessors sigma es).length ≤ 1 := by
    intro es
    induction es with
    | nil => simp [edgeSuccessors]
    | cons e es ih =>
      rw [edgeSuccessors]
      by_cases h1 : sameSymbol e.tag sigma
      · simp [h1]
      · by_cases h2 : sameSymbol (c.getState e.dst).action sigma
        · simp [h1, h2]
        · simpa [h1, h2] using ih
  unfold intSuccessors
  split_ifs
  · exact hedge _
  · simp
  · simp

end AbstractCfg

end Liss
