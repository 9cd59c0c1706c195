/-
`clang_interf/statement_visitor.h`, `clang_interf/statement_visitor.cpp`: the states that the visitor adds to a thread
for an expression without calls.

The visitor goes through the tree in the order of the AST, adds a state for each reference to a global variable, and
links it to the state that it added last. An assignment is visited from the right; its left side by a second visitor,
whose accesses are writes, and whose last state is linked to the outer chain.
-/
import Liss.Abstraction.IdentifierStore
import Liss.Cfg.AbstractCfg

namespace Liss

/-- the declaration that a reference found -/
inductive Decl where
  /-- a `VarDecl`: its name, the two tests of `VisitDeclRefExpr`, and the name of its type if that is a `TypedefType` -/
  | var (name : String) (isParm isLocal : Bool) (typeName : String)
  | other
deriving DecidableEq, Repr

/-- An expression without calls. A node carries its identity, which `seen_stmt` and the places for locks go by. All
kinds of nodes that the visitor does not treat are one, with the children in the order in which they are visited. -/
inductive Expr where
  | declRefExpr (id : ℕ) (decl : Decl)
  | binAssign (id : ℕ) (lhs rhs : Expr)
  /-- the string literal that `make_artificial` puts into a function body -/
  | artificial (id : ℕ)
  | other (id : ℕ) (children : List Expr)

def Expr.id : Expr → ℕ
  | declRefExpr id _ => id
  | binAssign id _ _ => id
  | artificial id => id
  | other id _ => id

/-- what a visitor is given and does not change -/
structure VisitContext where
  seenStmt : List ℕ := []
  /-- start and end of the statement that can be locked around a node, as `lock_locations` finds them; `none` where it
  sets nothing -/
  place : ℕ → Option ℕ × Option ℕ := fun _ => (none, none)

/-- `statement_visitor`, with the thread and the store that it refers to -/
structure StatementVisitor where
  thread : AbstractCfg
  identifierStore : IdentifierStore := {}
  startState : ℕ := noState
  endState : ℕ := noState
  lastNondet : Bool := false
deriving DecidableEq, Repr

namespace StatementVisitor

def progress (v : StatementVisitor) : Bool := v.startState != noState

/-- `lock_locations` -/
def lockLocations (k : VisitContext) (id stateId : ℕ) (v : StatementVisitor) : StatementVisitor :=
  { v with thread := v.thread.modifyState stateId fun s =>
      { s with lockBefore := (k.place id).1, lockAfter := (k.place id).2 } }

/-- the second half of `add_successor`: two states of one statement have no place for a lock between them -/
def joinLocks (prev next : ℕ) (c : AbstractCfg) : AbstractCfg :=
  if (c.getState prev).lockAfter = (c.getState next).lockAfter then
    (c.modifyState prev fun s => { s with lockAfter := none }).modifyState next fun s => { s with lockBefore := none }
  else c

/-- `add_successor` -/
def addSuccessor (v : StatementVisitor) (successor : ℕ) : StatementVisitor :=
  if v.endState ≠ noState then
    { v with thread := joinLocks v.endState successor (v.thread.addEdge v.endState successor), endState := successor }
  else { v with startState := successor, endState := successor }

/-- a new state, its places for locks, and the link to it -/
def addState (k : VisitContext) (id : ℕ) (v : StatementVisitor) (added : Option AbstractCfg) :
    Except FrontError StatementVisitor :=
  match added with
  | none => .error (.rangeError "Maximum number of states reached")
  | some thread => .ok (addSuccessor (lockLocations k id v.thread.states.length { v with thread := thread })
      v.thread.states.length)

/-- `VisitDeclRefExpr` -/
def visitDeclRefExpr (k : VisitContext) (writer : Bool) (id : ℕ) (decl : Decl) (v : StatementVisitor) :
    Except FrontError StatementVisitor :=
  match decl with
  | .other => .ok v
  | .var name isParm isLocal typeName =>
    if isParm || isLocal then .ok v
    else if name = "nondet" then .ok { v with lastNondet := true }
    else if typeName = "lock_t" ∨ typeName = "conditional_t" then
      .error (.parseError ("Variable " ++ name ++ " must not use type lock_t or conditional_t"))
    else do
      let (var, store) ← v.identifierStore.insertVariable name
      let action : Symbol := { operation := if writer then .write else .read, var := var, loc := ⟨0, 0⟩,
                               flags := by cases writer <;> exact plain_flags _ }
      addState k id { v with identifierStore := store } (v.thread.addState action)

/-- the visitor for the left side of an assignment -/
def inner (v : StatementVisitor) : StatementVisitor := { thread := v.thread, identifierStore := v.identifierStore }

/-- the end of `TraverseBinAssign`, when the inner visitor has become `w` -/
def joinInner (v w : StatementVisitor) : StatementVisitor :=
  let v := { v with thread := w.thread, identifierStore := w.identifierStore }
  if w.progress then v.addSuccessor w.endState else v

mutual

/-- `TraverseStmt`, and `TraverseBinAssign` -/
def traverseStmt (k : VisitContext) (writer : Bool) (e : Expr) (v : StatementVisitor) :
    Except FrontError StatementVisitor :=
  let v := { v with lastNondet := false }
  if e.id ∈ k.seenStmt then .ok v
  else match e with
    | .artificial id => addState k id v v.thread.addDummyState
    | .declRefExpr id decl => visitDeclRefExpr k writer id decl v
    | .binAssign _ lhs rhs => do
      let v ← traverseStmt k writer rhs v
      let w ← traverseStmt k true lhs v.inner
      .ok (v.joinInner w)
    | .other _ children => traverseChildren k writer children v

/-- the children of a node, one after the other -/
def traverseChildren (k : VisitContext) (writer : Bool) (es : List Expr) (v : StatementVisitor) :
    Except FrontError StatementVisitor :=
  match es with
  | [] => .ok v
  | e :: es => do
    let v ← traverseStmt k writer e v
    traverseChildren k writer es v

end

/-- `TraverseBinAssign` -/
def traverseBinAssign (k : VisitContext) (writer : Bool) (lhs rhs : Expr) (v : StatementVisitor) :
    Except FrontError StatementVisitor := do
  let v ← traverseStmt k writer rhs v
  let w ← traverseStmt k true lhs v.inner
  .ok (v.joinInner w)

/-! ## Kinds of nodes -/

variable {k : VisitContext} {writer : Bool} {v : StatementVisitor}

theorem traverseStmt_seen {e : Expr} (h : e.id ∈ k.seenStmt) :
    traverseStmt k writer e v = .ok { v with lastNondet := false } := by
  cases e with
  | declRefExpr => rw [traverseStmt, if_pos h]
  | binAssign => rw [traverseStmt, if_pos h]
  | artificial => rw [traverseStmt, if_pos h]
  | other => rw [traverseStmt, if_pos h]

theorem traverseStmt_artificial {id : ℕ} (h : (Expr.artificial id).id ∉ k.seenStmt) :
    traverseStmt k writer (.artificial id) v = addState k id { v with lastNondet := false } v.thread.addDummyState := by
  rw [traverseStmt]
  exact if_neg h

theorem traverseStmt_declRefExpr {id : ℕ} {decl : Decl} (h : (Expr.declRefExpr id decl).id ∉ k.seenStmt) :
    traverseStmt k writer (.declRefExpr id decl) v =
      visitDeclRefExpr k writer id decl { v with lastNondet := false } := by
  rw [traverseStmt]
  exact if_neg h

theorem traverseStmt_binAssign {id : ℕ} {lhs rhs : Expr} (h : (Expr.binAssign id lhs rhs).id ∉ k.seenStmt) :
    traverseStmt k writer (.binAssign id lhs rhs) v =
      traverseBinAssign k writer lhs rhs { v with lastNondet := false } := by
  rw [traverseStmt]
  exact if_neg h

theorem traverseStmt_other {id : ℕ} {children : List Expr} (h : (Expr.other id children).id ∉ k.seenStmt) :
    traverseStmt k writer (.other id children) v =
      traverseChildren k writer children { v with lastNondet := false } := by
  rw [traverseStmt]
  exact if_neg h

end StatementVisitor

end Liss
