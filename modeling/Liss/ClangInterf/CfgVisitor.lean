/-
`clang_interf/cfg_visitor.h`, `clang_interf/cfg_visitor.cpp`, and the calls and returns of
`clang_interf/statement_visitor.cpp`: how the CFG of a thread is made from those of clang.

`process_block` goes through the blocks of a function depth first, adds the states of a block when it comes to it for
the first time, and links the last state of the block before to the first one. A call of a function with a body is
replaced by a copy of the function's blocks, between a state for the call and one for the return; so the visitors call
each other, and the depth of calls is bounded by fuel. The names of states without action are left out.

- `traverseStmt_toStmt`: on expressions without calls this is the visitor of `StatementVisitor`.
-/
import Liss.ClangInterf.StatementVisitor

namespace Liss

/-- A statement. A call carries the function that it calls, if its declaration is one, and its argument with the name of
the argument's type, if that is its only one and a variable. -/
inductive Stmt where
  | declRefExpr (id : ℕ) (decl : Decl)
  | binAssign (id : ℕ) (lhs rhs : Stmt)
  /-- the string literal that `make_artificial` puts into a function body -/
  | artificial (id : ℕ)
  | returnStmt (id : ℕ) (children : List Stmt)
  | callExpr (id : ℕ) (callee : Option ℕ) (argument : Option (String × String)) (children : List Stmt)
  | other (id : ℕ) (children : List Stmt)

def Stmt.id : Stmt → ℕ
  | declRefExpr id _ => id
  | binAssign id _ _ => id
  | artificial id => id
  | returnStmt id _ => id
  | callExpr id _ _ _ => id
  | other id _ => id

mutual

/-- an expression without calls as a statement -/
def Expr.toStmt : Expr → Stmt
  | .declRefExpr id decl => .declRefExpr id decl
  | .binAssign id lhs rhs => .binAssign id lhs.toStmt rhs.toStmt
  | .artificial id => .artificial id
  | .other id children => .other id (Expr.toStmts children)

def Expr.toStmts : List Expr → List Stmt
  | [] => []
  | e :: es => e.toStmt :: Expr.toStmts es

end

/-- the kinds of terminators that `process_block` tells apart -/
inductive Terminator where
  | whileStmt
  | ifStmt
  | other
deriving DecidableEq, Repr

/-- `clang::CFGBlock`: its statements, and its successors, `none` where `getReachableBlock` gives null -/
structure CFGBlock where
  elements : List Stmt := []
  terminator : Option Terminator := none
  succs : List (Option ℕ) := []

/-- `clang::CFG`, for a body with an artificial statement at its start and its end. Entry and exit are blocks without
statements, as `process_block` asserts, nothing leads to the one or on from the other. -/
structure ClangCfg where
  blocks : List CFGBlock
  entry : ℕ
  exit : ℕ
  entry_ne_exit : entry ≠ exit
  range : entry < blocks.length ∧ exit < blocks.length
  entry_empty : (blocks.getD entry {}).elements = []
  exit_empty : (blocks.getD exit {}).elements = [] ∧ (blocks.getD exit {}).succs = []
  succs : ∀ b ∈ blocks, ∀ t, some t ∈ b.succs → t < blocks.length ∧ t ≠ entry

def ClangCfg.block (cfg : ClangCfg) (id : ℕ) : CFGBlock := cfg.blocks.getD id {}

structure FunctionDecl where
  name : String
  body : Option ClangCfg

/-- what clang knows of a C file -/
structure TranslationUnit where
  functions : List FunctionDecl
  /-- the functions, in the order in which they are declared -/
  decls : List ℕ := []
  /-- as in `VisitContext` -/
  place : ℕ → Option ℕ × Option ℕ := fun _ => (none, none)

def TranslationUnit.function (u : TranslationUnit) (f : ℕ) : FunctionDecl := u.functions.getD f ⟨"", none⟩

/-- a result, or what is thrown, or no answer with the fuel given -/
abbrev Front (α : Type) := Option (Except FrontError α)

namespace Front

variable {α β : Type}

def bind (x : Front α) (f : α → Front β) : Front β :=
  match x with
  | none => none
  | some (.error e) => some (.error e)
  | some (.ok a) => f a

theorem bind_ok {x : Front α} {f : α → Front β} {b : β} (h : x.bind f = some (.ok b)) :
    ∃ a, x = some (.ok a) ∧ f a = some (.ok b) := by
  unfold bind at h
  split at h
  · simp at h
  · simp at h
  · exact ⟨_, rfl, h⟩

theorem bind_some (x : Except FrontError α) (f : α → Except FrontError β) :
    bind (some x) (fun a => some (f a)) = some (x.bind f) := by
  cases x with
  | error e => rfl
  | ok a => rfl

end Front

namespace FrontEnd

open StatementVisitor

/-! ## Calls -/

/-- the operation that a call stands for -/
structure SyncOp where
  operation : OpClass
  /-- the kind of its argument, none for `yield` -/
  category : Option IdentifierStore.Category
  assume : Bool := false
  synthesised : Bool := false
  flags : (assume = true → operation = .wait ∨ operation = .waitNot) ∧
    (synthesised = true → operation = .lock ∨ operation = .unlock) ∧ ((-1 : ℤ) ≠ -1 → operation = .tag) := by
      simp

def SyncOp.typeName (op : SyncOp) : String := if op.category = some .lock then "lock_t" else "conditional_t"

def yield : SyncOp := { operation := .yield, category := none }

/-- the names of functions that take a lock or a conditional -/
def syncOps : List (String × SyncOp) :=
  [("lock", { operation := .lock, category := some .lock }),
    ("lock_s", { operation := .lock, category := some .lock, synthesised := true }),
    ("unlock", { operation := .unlock, category := some .lock }),
    ("unlock_s", { operation := .unlock, category := some .lock, synthesised := true }),
    ("notify", { operation := .notify, category := some .conditional }),
    ("reset", { operation := .reset, category := some .conditional }),
    ("wait", { operation := .wait, category := some .conditional }),
    ("assume", { operation := .wait, category := some .conditional, assume := true }),
    ("wait_not", { operation := .waitNot, category := some .conditional }),
    ("assume_not", { operation := .waitNot, category := some .conditional, assume := true }),
    ("wait_reset", { operation := .waitReset, category := some .conditional })]

/-- the first half of `TraverseCallExpr`: the operation that the call stands for and the name of its argument, if it
does -/
def syncCall (name : String) (argument : Option (String × String)) : Except FrontError (Option (SyncOp × String)) :=
  if name = "yield" then .ok (some (yield, ""))
  else match argument with
    | none => .ok none
    | some (varName, typeName) =>
      match syncOps.lookup name with
      | none => .ok none
      | some op =>
        if typeName ≠ op.typeName then
          .error (.parseError ("Variable " ++ varName ++ " must be of type " ++ op.typeName))
        else .ok (some (op, varName))

/-- the same of a call whose declaration may be no function -/
def calleeSync (u : TranslationUnit) (callee : Option ℕ) (argument : Option (String × String)) :
    Except FrontError (Option (SyncOp × String)) :=
  match callee with
  | none => .ok none
  | some f => syncCall (u.function f).name argument

/-- the body that a call is replaced by -/
def calleeBody (u : TranslationUnit) (callee : Option ℕ) : Option ClangCfg := callee.bind fun f => (u.function f).body

/-- the number of the argument -/
def insertArgument (op : SyncOp) (varName : String) (store : IdentifierStore) :
    Except FrontError (ℕ × IdentifierStore) :=
  match op.category with
  | none => .ok (0, store)
  | some category => store.insert ⟨category, varName⟩

/-- the state for the operation -/
def addSync (k : VisitContext) (id : ℕ) (op : SyncOp) (varName : String) (v : StatementVisitor) :
    Except FrontError StatementVisitor := do
  let (var, store) ← insertArgument op varName v.identifierStore
  let action : Symbol := { operation := op.operation, var := var, loc := ⟨0, 0⟩, assume := op.assume,
                           synthesised := op.synthesised, flags := op.flags }
  addState k id { v with identifierStore := store } (v.thread.addState action)

/-- the two flags of `lock_locations` -/
def allow (before after : Bool) (k : VisitContext) : VisitContext :=
  { k with place := fun id => (if before then (k.place id).1 else none, if after then (k.place id).2 else none) }

/-- a state without action -/
def addPlain (k : VisitContext) (id : ℕ) (v : StatementVisitor) : Except FrontError StatementVisitor :=
  addState k id v v.thread.addDummyState

/-- what `process_function` gives back: the thread and the store with the states of the function, its entry and its
exit state -/
structure Inlined where
  thread : AbstractCfg
  identifierStore : IdentifierStore
  entryState : ℕ
  exitState : ℕ

/-- `process_function` for the functions that are called -/
abbrev Inliner := ClangCfg → AbstractCfg → IdentifierStore → Front Inlined

/-- the states of the function after the state of its call; `end_state` is set without a test -/
def spliceCall (v : StatementVisitor) (r : Inlined) : StatementVisitor :=
  { addSuccessor { v with thread := r.thread, identifierStore := r.identifierStore } r.entryState with
    endState := r.exitState }

/-- the second half of `TraverseCallExpr`, for a function with a body -/
def inlineCall (call : Inliner) (k : VisitContext) (id : ℕ) (cfg : ClangCfg) (v : StatementVisitor) :
    Front StatementVisitor :=
  Front.bind (some (addPlain (allow true false k) id v)) fun w =>
    Front.bind (call cfg w.thread w.identifierStore) fun r =>
      let x := spliceCall w r
      Front.bind (some (addPlain (allow false true k) id x)) fun y =>
        some (.ok { y with thread := y.thread.modifyState v.thread.states.length fun s =>
          { s with returnState := x.thread.states.length } })

/-! ## Statements -/

/-- the first line of `TraverseStmt` -/
def resetNondet (v : StatementVisitor) : StatementVisitor := { v with lastNondet := false }

mutual

/-- `TraverseStmt`, `TraverseBinAssign`, `TraverseReturnStmt`, `TraverseCallExpr` -/
def traverseStmt (u : TranslationUnit) (call : Inliner) (k : VisitContext) (writer : Bool) (s : Stmt)
    (v : StatementVisitor) : Front StatementVisitor :=
  if s.id ∈ k.seenStmt then some (.ok (resetNondet v))
  else match s with
    | .artificial id => some (addPlain k id (resetNondet v))
    | .declRefExpr id decl => some (visitDeclRefExpr k writer id decl (resetNondet v))
    | .binAssign _ lhs rhs =>
      Front.bind (traverseStmt u call k writer rhs (resetNondet v)) fun w =>
        Front.bind (traverseStmt u call k true lhs w.inner) fun x => some (.ok (w.joinInner x))
    | .returnStmt id children =>
      Front.bind (traverseChildren u call k writer children (resetNondet v)) fun w =>
        some (addPlain (allow true false k) id w)
    | .callExpr id callee argument children =>
      match calleeSync u callee argument with
      | .error e => some (.error e)
      | .ok (some (op, varName)) => some (addSync k id op varName (resetNondet v))
      | .ok none =>
        Front.bind (traverseChildren u call k writer children (resetNondet v)) fun w =>
          match calleeBody u callee with
          | none => some (.ok w)
          | some cfg => inlineCall call k id cfg w
    | .other _ children => traverseChildren u call k writer children (resetNondet v)

def traverseChildren (u : TranslationUnit) (call : Inliner) (k : VisitContext) (writer : Bool) (l : List Stmt)
    (v : StatementVisitor) : Front StatementVisitor :=
  match l with
  | [] => some (.ok v)
  | s :: l =>
    Front.bind (traverseStmt u call k writer s v) fun w => traverseChildren u call k writer l w

end

/-- the statements of a block, with those seen before -/
def traverseElements (u : TranslationUnit) (call : Inliner) :
    List ℕ → List Stmt → StatementVisitor → Front StatementVisitor
  | _, [], v => some (.ok v)
  | seen, s :: l, v =>
    Front.bind (traverseStmt u call ⟨seen, u.place⟩ false s v) fun w => traverseElements u call (s.id :: seen) l w

/-! ## Blocks -/

/-- `cfg_visitor`, with the thread and the store that it refers to -/
structure CfgVisitor where
  thread : AbstractCfg
  identifierStore : IdentifierStore
  /-- the first states of the blocks -/
  blockMap : List (ℕ × ℕ) := []
  exitState : ℕ := noState
  entryState : ℕ := noState

/-- the edge from the block before -/
def connect (thread : AbstractCfg) (lastState first : ℕ) : AbstractCfg :=
  if lastState ≠ noState then thread.addEdge lastState first else thread

/-- the states of a block, with a state of its own if its statements have none; gives its last state as well -/
def enterBlock (block lastState : ℕ) (v : CfgVisitor) (sv : StatementVisitor) : Except FrontError (CfgVisitor × ℕ) :=
  if sv.progress then
    .ok ({ v with thread := connect sv.thread lastState sv.startState, identifierStore := sv.identifierStore,
                  blockMap := (block, sv.startState) :: v.blockMap }, sv.endState)
  else
    match sv.thread.addDummyState with
    | none => .error (.rangeError "Maximum number of states reached")
    | some thread =>
      .ok ({ v with thread := connect thread lastState sv.thread.states.length, identifierStore := sv.identifierStore,
                    blockMap := (block, sv.thread.states.length) :: v.blockMap }, sv.thread.states.length)

/-- what is noted of a block: whether it is the first or the exit, and whether its branch is non-deterministic -/
def markBlock (cfg : ClangCfg) (block last : ℕ) (lastNondet : Bool) (v : CfgVisitor) : CfgVisitor :=
  { v with
    entryState := if v.entryState = noState then last else v.entryState
    exitState := if block = cfg.exit then last else v.exitState
    thread :=
      if (cfg.block block).terminator = some .whileStmt ∨ (cfg.block block).terminator = some .ifStmt then
        v.thread.modifyState last fun s => { s with nonDet := lastNondet }
      else v.thread }

/-- the loop over the successors of a block -/
def processSuccs (process : ℕ → CfgVisitor → Front CfgVisitor) : List (Option ℕ) → CfgVisitor → Front CfgVisitor
  | [], v => some (.ok v)
  | none :: l, v => processSuccs process l v
  | some block :: l, v => Front.bind (process block v) fun w => processSuccs process l w

/-- `process_block`; the depth of its recursion is bounded by the first argument -/
def processBlock (u : TranslationUnit) (call : Inliner) (cfg : ClangCfg) :
    ℕ → List ℕ → ℕ → ℕ → CfgVisitor → Front CfgVisitor
  | 0, _, _, _, _ => none
  | depth + 1, parentBlocks, lastState, block, v =>
    match v.blockMap.lookup block with
    | some first => some (.ok { v with thread := v.thread.addEdge lastState first (parentBlocks.contains block) })
    | none =>
      Front.bind (traverseElements u call [] (cfg.block block).elements
          { thread := v.thread, identifierStore := v.identifierStore }) fun sv =>
        Front.bind (some (enterBlock block lastState v sv)) fun w =>
          processSuccs (processBlock u call cfg depth (block :: parentBlocks) w.2) (cfg.block block).succs
            (markBlock cfg block w.2 sv.lastNondet w.1)

/-- `process_function`; calls within calls are bounded by the first argument. A new block is at most as deep as there
are blocks. -/
def processFunction (u : TranslationUnit) : ℕ → Inliner
  | 0, _, _, _ => none
  | fuel + 1, cfg, thread, identifierStore =>
    Front.bind (processBlock u (processFunction u fuel) cfg (cfg.blocks.length + 1) [] noState cfg.entry
        { thread := thread, identifierStore := identifierStore }) fun v =>
      some (.ok ⟨v.thread, v.identifierStore, v.entryState, v.exitState⟩)

/-! ## Kinds of nodes -/

variable {u : TranslationUnit} {call : Inliner} {k : VisitContext} {writer : Bool} {v : StatementVisitor}

theorem traverseStmt_seen {s : Stmt} (h : s.id ∈ k.seenStmt) :
    traverseStmt u call k writer s v = some (.ok (resetNondet v)) := by
  unfold traverseStmt
  exact if_pos h

theorem traverseStmt_artificial {id : ℕ} (h : (Stmt.artificial id).id ∉ k.seenStmt) :
    traverseStmt u call k writer (.artificial id) v = some (addPlain k id (resetNondet v)) := by
  rw [traverseStmt]
  exact if_neg h

theorem traverseStmt_declRefExpr {id : ℕ} {decl : Decl} (h : (Stmt.declRefExpr id decl).id ∉ k.seenStmt) :
    traverseStmt u call k writer (.declRefExpr id decl) v =
      some (visitDeclRefExpr k writer id decl (resetNondet v)) := by
  rw [traverseStmt]
  exact if_neg h

theorem traverseStmt_binAssign {id : ℕ} {lhs rhs : Stmt} (h : (Stmt.binAssign id lhs rhs).id ∉ k.seenStmt) :
    traverseStmt u call k writer (.binAssign id lhs rhs) v =
      Front.bind (traverseStmt u call k writer rhs (resetNondet v)) fun w =>
        Front.bind (traverseStmt u call k true lhs w.inner) fun x => some (.ok (w.joinInner x)) := by
  rw [traverseStmt]
  exact if_neg h

theorem traverseStmt_returnStmt {id : ℕ} {children : List Stmt} (h : (Stmt.returnStmt id children).id ∉ k.seenStmt) :
    traverseStmt u call k writer (.returnStmt id children) v =
      Front.bind (traverseChildren u call k writer children (resetNondet v)) fun w =>
        some (addPlain (allow true false k) id w) := by
  rw [traverseStmt]
  exact if_neg h

theorem traverseStmt_callExpr {id : ℕ} {callee : Option ℕ} {argument : Option (String × String)} {children : List Stmt}
    (h : (Stmt.callExpr id callee argument children).id ∉ k.seenStmt) :
    traverseStmt u call k writer (.callExpr id callee argument children) v =
      match calleeSync u callee argument with
      | .error e => some (.error e)
      | .ok (some (op, varName)) => some (addSync k id op varName (resetNondet v))
      | .ok none =>
        Front.bind (traverseChildren u call k writer children (resetNondet v)) fun w =>
          match calleeBody u callee with
          | none => some (.ok w)
          | some cfg => inlineCall call k id cfg w := by
  rw [traverseStmt]
  exact if_neg h

theorem traverseStmt_other {id : ℕ} {children : List Stmt} (h : (Stmt.other id children).id ∉ k.seenStmt) :
    traverseStmt u call k writer (.other id children) v =
      traverseChildren u call k writer children (resetNondet v) := by
  rw [traverseStmt]
  exact if_neg h

/-! ## Expressions without calls -/

theorem id_toStmt (e : Expr) : e.toStmt.id = e.id := by
  cases e with
  | declRefExpr => rfl
  | binAssign => rfl
  | artificial => rfl
  | other => rfl

mutual

/-- **Expressions without calls.** Both visitors do the same. -/
theorem traverseStmt_toStmt (e : Expr) {writer : Bool} {v : StatementVisitor} :
    traverseStmt u call k writer e.toStmt v = some (StatementVisitor.traverseStmt k writer e v) := by
  by_cases hseen : e.id ∈ k.seenStmt
  · rw [traverseStmt_seen ((id_toStmt e).symm ▸ hseen), StatementVisitor.traverseStmt_seen hseen]
    rfl
  · match e with
    | .artificial id =>
      rw [Expr.toStmt, traverseStmt_artificial hseen, StatementVisitor.traverseStmt_artificial hseen]
      rfl
    | .declRefExpr id decl =>
      rw [Expr.toStmt, traverseStmt_declRefExpr hseen, StatementVisitor.traverseStmt_declRefExpr hseen]
      rfl
    | .binAssign id lhs rhs =>
      have hleft : ∀ w : StatementVisitor, Front.bind (traverseStmt u call k true lhs.toStmt w.inner)
          (fun x => some (.ok (w.joinInner x))) =
            some ((StatementVisitor.traverseStmt k true lhs w.inner).bind fun x => .ok (w.joinInner x)) := by
        intro w
        rw [traverseStmt_toStmt lhs, Front.bind_some]
      rw [Expr.toStmt, traverseStmt_binAssign hseen, StatementVisitor.traverseStmt_binAssign hseen,
        traverseStmt_toStmt rhs]
      simp only [hleft, Front.bind_some]
      rfl
    | .other id children =>
      rw [Expr.toStmt, traverseStmt_other hseen, StatementVisitor.traverseStmt_other hseen]
      exact traverseChildren_toStmts children

theorem traverseChildren_toStmts (es : List Expr) {writer : Bool} {v : StatementVisitor} :
    traverseChildren u call k writer (Expr.toStmts es) v = some (StatementVisitor.traverseChildren k writer es v) := by
  match es with
  | [] => rw [Expr.toStmts, traverseChildren, StatementVisitor.traverseChildren]
  | e :: es =>
    have hrest : ∀ w, traverseChildren u call k writer (Expr.toStmts es) w =
        some (StatementVisitor.traverseChildren k writer es w) := fun w => traverseChildren_toStmts es
    rw [Expr.toStmts, traverseChildren, StatementVisitor.traverseChildren, traverseStmt_toStmt e]
    simp only [hrest, Front.bind_some]
    rfl

end

end FrontEnd

end Liss
