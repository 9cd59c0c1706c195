/-
`cfg/abstract_cfg.h`, `cfg/abstract_cfg.cpp`: the control flow graph of one thread and the two passes over it,
`minimise` (removes the states without action) and `compact` (renumbers the states that are left).

States are numbered from 1; entry 0 of both vectors is the unused "No state". `minimise` is three loops: the queue
`frontier2` with, for each state taken from it, the inner loop over the growing vector `edges[next]`; the queue of
simple paths that sets the distances and marks the back edges; and the pass that sets the costs. The queues are run
by `Worklist.run` with a fuel argument.
-/
import Mathlib.Data.List.GetD
import Liss.Types
import Liss.Lib.Worklist

namespace Liss

/-- `cfg::state` -/
structure State where
  action : Option Symbol := none
  /-- represents the state if it has no action -/
  nonActionSymbol : Option Symbol := none
  final : Bool := false
  nonDet : Bool := false
  /-- where a call returns, `noState` for no call -/
  returnState : ℕ := 0
  /-- where a lock may be put, `none` for the invalid `SourceLocation()` -/
  lockBefore : Option ℕ := none
  lockAfter : Option ℕ := none
  distance : ℤ := 0
deriving DecidableEq, Repr

instance : Inhabited State := ⟨{}⟩

namespace State

/-- the constructor `state(id, action)` -/
def ofAction (action : Symbol) : State := { action := some action }

/-- the constructor `state(thread_id, id)` -/
def ofId (threadId id : ℕ) : State := { nonActionSymbol := some (Symbol.ofState threadId id) }

/-- `state::id` -/
def setId (s : State) (newId : ℕ) : State :=
  { s with
    action := s.action.map (·.withState newId)
    nonActionSymbol := s.nonActionSymbol.map (·.withState newId) }

/-- the state can be locked -/
def lockable (s : State) : Bool := s.lockBefore.isSome || s.lockAfter.isSome

end State

/-- `cfg::edge` -/
structure Edge where
  /-- the field `to` of the source -/
  dst : ℕ
  backEdge : Bool := false
  tag : Option Symbol := none
  cost : ℤ := 0
  /-- the states between the two ends that `minimise` has removed -/
  inBetweeners : List ℕ := []
deriving DecidableEq, Repr

/-- `edge::id` -/
def Edge.setId (e : Edge) (newId : ℕ) : Edge := { e with tag := e.tag.map (·.withState newId) }

/-- `insert` into a `std::set<edge>`: ordered by target, an edge to a known target is dropped -/
def Edge.insertTo (e : Edge) : List Edge → List Edge
  | [] => [e]
  | f :: l => if e.dst < f.dst then e :: f :: l else if e.dst = f.dst then f :: l else f :: Edge.insertTo e l

theorem mem_insertTo {e f : Edge} {l : List Edge} (h : f ∈ e.insertTo l) : f = e ∨ f ∈ l := by
  induction l with
  | nil => simpa [Edge.insertTo] using h
  | cons g l ih =>
    rw [Edge.insertTo] at h
    split_ifs at h
    · simpa using h
    · exact Or.inr h
    · rcases List.mem_cons.1 h with rfl | h
      · exact Or.inr List.mem_cons_self
      · rcases ih h with h | h
        · exact Or.inl h
        · exact Or.inr (List.mem_cons_of_mem _ h)

structure AbstractCfg where
  threadId : ℕ
  states : List State
  edges : List (List Edge)
deriving DecidableEq, Repr

namespace AbstractCfg

/-- `get_state`; an id past the end gives the default state -/
def getState (c : AbstractCfg) (id : ℕ) : State := c.states.getD id default

/-- `get_successors` -/
def getSuccessors (c : AbstractCfg) (src : ℕ) : List Edge := c.edges.getD src []

/-- the graph of the CFG -/
def HasEdge (c : AbstractCfg) (u v : ℕ) : Prop := ∃ e ∈ c.getSuccessors u, e.dst = v

instance (c : AbstractCfg) (u v : ℕ) : Decidable (c.HasEdge u v) :=
  inferInstanceAs (Decidable (∃ e ∈ c.getSuccessors u, e.dst = v))

theorem mem_edges_of_getSuccessors {c : AbstractCfg} {id : ℕ} {e : Edge} (he : e ∈ c.getSuccessors id) :
    ∃ es ∈ c.edges, e ∈ es := by
  unfold getSuccessors at he
  by_cases hid : id < c.edges.length
  · rw [List.getD_eq_getElem _ _ hid] at he
    exact ⟨_, List.getElem_mem hid, he⟩
  · rw [List.getD_eq_default _ _ (by omega)] at he
    simp at he

theorem mem_states_of_action {c : AbstractCfg} {id : ℕ} {a : Symbol} (ha : (c.getState id).action = some a) :
    ∃ s ∈ c.states, s.action = some a := by
  unfold getState at ha
  by_cases hid : id < c.states.length
  · rw [List.getD_eq_getElem _ _ hid] at ha
    exact ⟨_, List.getElem_mem hid, ha⟩
  · rw [List.getD_eq_default _ _ (by omega)] at ha
    exact absurd ha (by simp [show (default : State).action = none from rfl])

def noStates (c : AbstractCfg) : ℕ := c.states.length - 1

/-! ## Construction -/

def maxStates : ℕ := 32767

/-- the constructor adds the unused state 0 -/
def empty (threadId : ℕ) : AbstractCfg := ⟨threadId, [State.ofId threadId 0], [[]]⟩

/-- `add_state(symbol)`; `none` when the maximum number of states is reached -/
def addState (c : AbstractCfg) (symbol : Symbol) : Option AbstractCfg :=
  if c.states.length ≥ maxStates then none
  else some { c with
    states := c.states ++ [State.ofAction { symbol with loc := ⟨c.threadId, c.states.length⟩ }]
    edges := c.edges ++ [[]] }

/-- `add_state(name)` and `add_dummy_state` -/
def addDummyState (c : AbstractCfg) : Option AbstractCfg :=
  if c.states.length ≥ maxStates then none
  else some { c with
    states := c.states ++ [State.ofId c.threadId c.states.length]
    edges := c.edges ++ [[]] }

def modifyState (c : AbstractCfg) (id : ℕ) (f : State → State) : AbstractCfg :=
  { c with states := c.states.modify id f }

/-- `edges[src] = es` -/
def setEdges (c : AbstractCfg) (src : ℕ) (es : List Edge) : AbstractCfg := { c with edges := c.edges.set src es }

def markFinal (c : AbstractCfg) (state : ℕ) : AbstractCfg := c.modifyState state fun s => { s with final := true }

/-- `tag_edge` on the edge vector of `state`; the edge number is cut to 8 bits -/
def tagEdge (threadId state : ℕ) (es : List Edge) (edge : ℕ) : List Edge :=
  es.modify (edge % 256) fun e => { e with tag := some (Symbol.ofBranch threadId state (edge % 256)) }

/-- `add_edge` -/
def addEdge (c : AbstractCfg) (src dst : ℕ) (backEdge : Bool := false) (autoTag : Bool := true) (cost : ℤ := 0) :
    AbstractCfg :=
  let es := c.getSuccessors src
  let tagging := autoTag && !(c.getState src).nonDet
  let es := if tagging && es.length == 1 then tagEdge c.threadId src es 0 else es
  let es := es ++ [{ dst := dst, backEdge := backEdge, cost := cost }]
  let es := if tagging && decide (es.length > 1) then tagEdge c.threadId src es (es.length - 1) else es
  c.setEdges src es

/-! ## `minimise` -/

/-- the states that `leave_lockables` keeps -/
def remain (c : AbstractCfg) (leaveLockables : Bool) : List ℕ :=
  if leaveLockables then (List.range c.states.length).filter fun i => (c.getState i).lockable else []

/-- no action, not final and not in `remain`: the state is replaced by its successors -/
def removable (c : AbstractCfg) (remain : List ℕ) (id : ℕ) : Bool :=
  (c.getState id).action.isNone && !(c.getState id).final && !remain.contains id

/-- the edge that leads on from the removed target of `edgeTo` -/
def joinEdge (edgeTo edge2 : Edge) : Edge :=
  { edge2 with
    tag := edge2.tag <|> edgeTo.tag
    inBetweeners := edgeTo.inBetweeners ++ edgeTo.dst :: edge2.inBetweeners }

/-- one iteration of the inner loop, on an edge of the growing vector `edges[next]`; the state is `seen_inner` and the
set `successors` -/
def expandStep (c : AbstractCfg) (remain : List ℕ) (st : List ℕ × List Edge) (edgeTo : Edge) :
    Option ((List ℕ × List Edge) × List Edge) :=
  let seenInner := edgeTo.dst :: st.1
  if c.removable remain edgeTo.dst then
    some ((seenInner, st.2),
      ((c.getSuccessors edgeTo.dst).filter fun edge2 => !seenInner.contains edge2.dst).map (joinEdge edgeTo))
  else some ((seenInner, edgeTo.insertTo st.2), [])

/-- the inner loop: the set `successors` of `next` -/
def expand (c : AbstractCfg) (remain : List ℕ) (fuel next : ℕ) : Option (List Edge) :=
  (Worklist.run (c.expandStep remain) fuel ([], []) (c.getSuccessors next)).map Prod.snd

/-- the new `edges[next]`: the successors in order, no back edges, those tagged before tagged by their number -/
def retag (threadId next : ℕ) (successors : List Edge) : List Edge :=
  successors.foldl (fun es e =>
    let es := es ++ [{ e with backEdge := false }]
    if e.tag.isSome then tagEdge threadId next es (es.length - 1) else es) []

/-- one iteration over `frontier2`; the state is the CFG and the set `seen` -/
def minimiseStep (remain : List ℕ) (fuel : ℕ) (st : AbstractCfg × List ℕ) (next : ℕ) :
    Option ((AbstractCfg × List ℕ) × List ℕ) :=
  if st.2.contains next then some (st, [])
  else (st.1.expand remain fuel next).map fun successors =>
    ((st.1.setEdges next (retag st.1.threadId next successors), next :: st.2), successors.map Edge.dst)

/-- the first loop of `minimise` -/
def minimiseEdges (c : AbstractCfg) (leaveLockables : Bool) (fuel : ℕ) : Option AbstractCfg :=
  (Worklist.run (minimiseStep (c.remain leaveLockables) fuel) fuel (c, []) [1]).map Prod.fst

/-- one iteration of the distance calculation, on a state and the states on the path to it -/
def distanceStep (c : AbstractCfg) (item : ℕ × List ℕ) : Option (AbstractCfg × List (ℕ × List ℕ)) :=
  let next := item.1
  let parents := next :: item.2
  let es := c.getSuccessors next
  let fwd := es.filter fun e => !parents.contains e.dst
  let dist := (c.getState next).distance + 1
  let c := fwd.foldl (fun c e => c.modifyState e.dst fun s => { s with distance := max s.distance dist }) c
  some (c.setEdges next (es.map fun e => if parents.contains e.dst then { e with backEdge := true } else e),
    fwd.map fun e => (e.dst, parents))

/-- the second loop of `minimise` -/
def minimiseDistances (c : AbstractCfg) (fuel : ℕ) : Option AbstractCfg :=
  Worklist.run distanceStep fuel { c with states := c.states.map fun s => { s with distance := 0 } } [(1, [])]

/-- the third loop of `minimise` -/
def backEdgeCosts (c : AbstractCfg) : AbstractCfg :=
  { c with
    edges := c.edges.mapIdx fun i es =>
      if i = 0 then es
      else es.map fun e =>
        if e.backEdge then { e with cost := (c.getState i).distance - (c.getState e.dst).distance + 1 } else e }

def minimise (c : AbstractCfg) (leaveLockables : Bool) (fuel : ℕ) : Option AbstractCfg := do
  let c ← c.minimiseEdges leaveLockables fuel
  let c ← c.minimiseDistances fuel
  return c.backEdgeCosts

/-! ## `compact` -/

/-- the active states: those reached from state 1 over edges that are no back edges -/
def activeStep (c : AbstractCfg) (active : List Bool) (next : ℕ) : Option (List Bool × List ℕ) :=
  some (active.set next true, ((c.getSuccessors next).filter fun e => !e.backEdge).map Edge.dst)

structure CompactState where
  cfg : AbstractCfg
  active : List Bool
  mapping : List ℕ
  lastActive : ℕ

/-- the loop that moves active states ahead, over the state numbers `i` that are left -/
def compactShift : List ℕ → CompactState → CompactState
  | [], st => st
  | i :: is, st =>
    if st.active.getD i false then compactShift is { st with lastActive := i }
    else
      match (List.range' i (st.active.length - i)).find? fun j => st.active.getD j false with
      | none => st
      | some j =>
        let moved := (st.cfg.setEdges i (st.cfg.getSuccessors j)).setEdges j []
        compactShift is
          { cfg := moved.modifyState i fun _ => (st.cfg.getState j).setId i
            active := st.active.set j false
            mapping := st.mapping.set j i
            lastActive := i }

/-- an entry of `mapping`, or the number itself where there is none -/
def mapId (mapping : List ℕ) (id : ℕ) : ℕ := if mapping.getD id noState ≠ noState then mapping.getD id noState else id

def compact (c : AbstractCfg) (fuel : ℕ) : Option AbstractCfg := do
  let active ← Worklist.run c.activeStep fuel (List.replicate c.states.length false) [1]
  let st := compactShift (List.range' 1 c.noStates)
    { cfg := c, active := active, mapping := List.replicate c.states.length noState, lastActive := 0 }
  return { st.cfg with
    states := (st.cfg.states.take (st.lastActive + 1)).mapIdx fun i s =>
      if i = 0 ∨ s.returnState = noState then s else { s with returnState := mapId st.mapping s.returnState }
    edges := (st.cfg.edges.take (st.lastActive + 1)).mapIdx fun i es =>
      if i = 0 then es
      else es.map fun e => { (e.setId i) with dst := mapId st.mapping e.dst, inBetweeners := [] } }

end AbstractCfg

end Liss
