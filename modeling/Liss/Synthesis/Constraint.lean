/-
`synthesis/location.h`, `synthesis/constraint.h`, `synthesis/lock.h`, and the negations of `types.h`.

The integer constant of a trace location is its position in the trace, that of the final location the length of the
trace. A Z3 expression of sort bool is a function from assignments of the integer constants. The names, iteration
numbers and clang pointers, which are only printed, are left out.
-/
import Liss.Types

namespace Liss.Synthesis

/-- a value for each integer constant -/
abbrev Assignment := ℕ → ℤ

/-- `z3::expr` of sort bool -/
abbrev Expr := Assignment → Bool

/-- `location`, of a symbol of the trace -/
structure TraceLocation where
  symbol : Symbol
  /-- `original_position`, and the integer constant `name` -/
  position : ℕ
deriving DecidableEq, Repr

namespace TraceLocation

def threadId (l : TraceLocation) : ℕ := l.symbol.threadId

abbrev instructionId (l : TraceLocation) : ℕ := l.position

end TraceLocation

/-- `constraint_atom`: `before < after` -/
structure ConstraintAtom where
  before : TraceLocation
  after : TraceLocation
  fromWaitNotify : Bool := false
deriving DecidableEq, Repr

namespace ConstraintAtom

/-- `operator z3::expr` -/
def expr (ca : ConstraintAtom) : Expr := fun a => decide (a ca.before.position < a ca.after.position)

/-- `operator!` swaps the two locations -/
def neg (ca : ConstraintAtom) : ConstraintAtom := { ca with before := ca.after, after := ca.before }

theorem expr_iff {ca : ConstraintAtom} {a : Assignment} :
    ca.expr a = true ↔ a ca.before.position < a ca.after.position := by
  simp [expr]

end ConstraintAtom

/-- `dnf::operator!`, with `conj::operator!` -/
def negDnf (d : Dnf ConstraintAtom) : Cnf ConstraintAtom := d.map fun c => c.map ConstraintAtom.neg

/-- `make_constraint`, of a conjunction -/
def makeConj (c : Conj ConstraintAtom) : Expr := fun a => c.all fun ca => ca.expr a

/-- `make_constraint`, of a disjunction of conjunctions -/
def makeDnf (d : Dnf ConstraintAtom) : Expr := fun a => d.any fun c => makeConj c a

theorem makeConj_iff {c : Conj ConstraintAtom} {a : Assignment} :
    makeConj c a = true ↔ ∀ ca ∈ c, a ca.before.position < a ca.after.position := by
  simp [makeConj, ConstraintAtom.expr_iff]

theorem makeConj_append (c c' : Conj ConstraintAtom) (a : Assignment) :
    makeConj (c ++ c') a = (makeConj c a && makeConj c' a) := List.all_append

/-- `lock_location` -/
structure LockLocation where
  start : TraceLocation
  fin : TraceLocation
deriving DecidableEq, Repr

/-- `lock` -/
structure Lock where
  locations : List LockLocation
deriving DecidableEq, Repr

end Liss.Synthesis
