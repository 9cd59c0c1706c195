/-
The meaning of C code as the tool sees it, a language of events.

Whether a branch is taken is not looked at: a function means the events on the ways through the blocks of clang's CFG,
from entry to exit.
The statements of a block are evaluated in order, the children of a statement in the order of the AST, the right side of
an assignment before the left one, and a call does what the function does. A statement that has been evaluated earlier
in the block is not evaluated again.

- `executions_mono`: deeper calls give more executions.
-/
import Liss.Cfg.Readings
import Liss.ClangInterf.CfgVisitor
import Liss.ClangInterf.Chains

namespace Liss

namespace FrontEnd

/-! ## Statements -/

/-- a reference is an access unless it is a parameter, a local variable or `nondet` -/
def accessEvents (writer : Bool) (decl : Decl) : List Event :=
  match decl with
  | .var name isParm isLocal _ =>
    if isParm || isLocal then []
    else if name = "nondet" then []
    else [{ operation := if writer then .write else .read, name := some name }]
  | .other => []

def SyncOp.event (op : SyncOp) (varName : String) : Event := ⟨op.operation, some varName, op.assume, op.synthesised⟩

section

variable (u : TranslationUnit) (call : ClangCfg → Language Event)

mutual

def stmtMeaning (seen : List ℕ) (writer : Bool) (s : Stmt) : Language Event :=
  if s.id ∈ seen then 1
  else match s with
    | .artificial _ => 1
    | .declRefExpr _ decl => {accessEvents writer decl}
    | .binAssign _ lhs rhs => stmtMeaning seen writer rhs * stmtMeaning seen true lhs
    | .returnStmt _ children => childrenMeaning seen writer children
    | .callExpr _ callee argument children =>
      match calleeSync u callee argument with
      | .error _ => 0
      | .ok (some (op, varName)) => {[op.event varName]}
      | .ok none =>
        childrenMeaning seen writer children *
          match calleeBody u callee with
          | none => 1
          | some cfg => call cfg
    | .other _ children => childrenMeaning seen writer children

def childrenMeaning (seen : List ℕ) (writer : Bool) (l : List Stmt) : Language Event :=
  match l with
  | [] => 1
  | s :: l => stmtMeaning seen writer s * childrenMeaning seen writer l

end

def elementsMeaning : List ℕ → List Stmt → Language Event
  | _, [] => 1
  | seen, s :: l => stmtMeaning u call seen false s * elementsMeaning (s.id :: seen) l

/-- clang's CFG with the meaning of its blocks -/
def clangGraph (cfg : ClangCfg) : WordGraph ℕ Event where
  edge i j := some j ∈ (cfg.block i).succs
  label i := elementsMeaning u call [] (cfg.block i).elements

end

/-- the executions of a function with calls of a bounded depth -/
def executions (u : TranslationUnit) : ℕ → ClangCfg → Language Event
  | 0, _ => 0
  | depth + 1, cfg => (clangGraph u (executions u depth) cfg).arrivals cfg.entry cfg.exit

/-- **The meaning of a function.** -/
def meaning (u : TranslationUnit) (cfg : ClangCfg) : Language Event := {w | ∃ depth, w ∈ executions u depth cfg}

/-! ## Deeper calls -/

variable {u : TranslationUnit} {call call' : ClangCfg → Language Event}

theorem mul_mono {l l' m m' : Language Event} (hl : ∀ w ∈ l, w ∈ l') (hm : ∀ w ∈ m, w ∈ m') :
    ∀ w ∈ l * m, w ∈ l' * m' := by
  intro w hw
  obtain ⟨a, ha, b, hb, rfl⟩ := Language.mem_mul.1 hw
  exact Language.append_mem_mul (hl a ha) (hm b hb)

mutual

theorem stmtMeaning_mono (hcall : ∀ cfg, ∀ w ∈ call cfg, w ∈ call' cfg) (seen : List ℕ) (writer : Bool) (s : Stmt) :
    ∀ w ∈ stmtMeaning u call seen writer s, w ∈ stmtMeaning u call' seen writer s := by
  by_cases hseen : s.id ∈ seen
  · unfold stmtMeaning
    rw [if_pos hseen, if_pos hseen]
    exact fun _ hw => hw
  · match s with
    | .artificial id =>
      rw [stmtMeaning, stmtMeaning]
      exact fun _ hw => hw
    | .declRefExpr id decl =>
      rw [stmtMeaning, stmtMeaning]
      exact fun _ hw => hw
    | .binAssign id lhs rhs =>
      rw [stmtMeaning, stmtMeaning, if_neg hseen, if_neg hseen]
      exact mul_mono (stmtMeaning_mono hcall seen writer rhs) (stmtMeaning_mono hcall seen true lhs)
    | .returnStmt id children =>
      rw [stmtMeaning, stmtMeaning, if_neg hseen, if_neg hseen]
      exact childrenMeaning_mono hcall seen writer children
    | .callExpr id callee argument children =>
      rw [stmtMeaning, stmtMeaning, if_neg hseen, if_neg hseen]
      split
      · exact fun _ hw => hw
      · exact fun _ hw => hw
      · refine mul_mono (childrenMeaning_mono hcall seen writer children) ?_
        split
        · exact fun _ hw => hw
        · exact hcall _
    | .other id children =>
      rw [stmtMeaning, stmtMeaning, if_neg hseen, if_neg hseen]
      exact childrenMeaning_mono hcall seen writer children

theorem childrenMeaning_mono (hcall : ∀ cfg, ∀ w ∈ call cfg, w ∈ call' cfg) (seen : List ℕ) (writer : Bool)
    (l : List Stmt) : ∀ w ∈ childrenMeaning u call seen writer l, w ∈ childrenMeaning u call' seen writer l := by
  match l with
  | [] =>
    rw [childrenMeaning, childrenMeaning]
    exact fun _ hw => hw
  | s :: l =>
    rw [childrenMeaning, childrenMeaning]
    exact mul_mono (stmtMeaning_mono hcall seen writer s) (childrenMeaning_mono hcall seen writer l)

end

theorem elementsMeaning_mono (hcall : ∀ cfg, ∀ w ∈ call cfg, w ∈ call' cfg) (seen : List ℕ) (l : List Stmt) :
    ∀ w ∈ elementsMeaning u call seen l, w ∈ elementsMeaning u call' seen l := by
  induction l generalizing seen with
  | nil => exact fun _ hw => hw
  | cons s l ih => exact mul_mono (stmtMeaning_mono hcall seen false s) (ih (s.id :: seen))

/-- **Deeper calls.** -/
theorem executions_mono {m n : ℕ} (hmn : m ≤ n) (cfg : ClangCfg) :
    ∀ w ∈ executions u m cfg, w ∈ executions u n cfg := by
  induction m generalizing n cfg with
  | zero =>
    intro w hw
    exact absurd hw (Language.notMem_zero w)
  | succ m ih =>
    obtain ⟨n, rfl⟩ : ∃ k, n = k + 1 := ⟨n - 1, by omega⟩
    have hcall : ∀ cfg, ∀ w ∈ executions u m cfg, w ∈ executions u n cfg := ih (by omega)
    exact WordGraph.arrivals_mono (G := clangGraph u (executions u m) cfg) (H := clangGraph u (executions u n) cfg)
      (fun i => elementsMeaning_mono hcall [] (cfg.block i).elements) (fun _ _ h => h) cfg.entry cfg.exit

end FrontEnd

end Liss
