/-
What a C expression reads and modifies, against the symbols that `statement_visitor` emits for it.

Expressions are built from references to global variables, subscripts, assignments, increments and decrements, and
operators without effect. A variable is modified if it is the target of an assignment, or is updated by a compound
assignment, an increment or a decrement. An update reads the variable as well. The visitor goes by positions instead: it
writes what stands in the left side of a plain assignment, and reads what stands elsewhere.

- `accesses_toExpr`: the visitor's accesses are the occurrences of the variables, and the positions say which are
  writes;
- `classified_iff`: the symbols are right exactly if the variables that are updated, and those whose value is used in a
  left side, occur at other positions too.
-/
import Liss.ClangInterf.Accesses

namespace Liss

/-- a global variable; `nondet` is none -/
structure GlobalVariable where
  name : String
  typeName : String
  isVariable : name ≠ "nondet"

mutual

/-- an expression that is used for its value; the numbers are the identities of the nodes -/
inductive CExpr where
  | literal (id : ℕ)
  /-- the conversion of a place to the value that it holds -/
  | load (id : ℕ) (place : Lvalue)
  | unary (id : ℕ) (e : CExpr)
  | binary (id : ℕ) (left right : CExpr)
  | assign (id : ℕ) (lhs : Lvalue) (rhs : CExpr)
  | compoundAssign (id : ℕ) (lhs : Lvalue) (rhs : CExpr)
  /-- `++` and `--`, before and after -/
  | incDec (id : ℕ) (place : Lvalue)

/-- an expression that is used for its place -/
inductive Lvalue where
  | reference (id : ℕ) (x : GlobalVariable)
  /-- an element of an array; `decay` is the conversion of the array to a pointer -/
  | element (id decay : ℕ) (array : Lvalue) (index : CExpr)
  /-- an element of what a pointer points to -/
  | pointee (id : ℕ) (pointer index : CExpr)

end

/-- what is done to a variable -/
inductive Use where
  /-- it, or an element of it, is read -/
  | value
  /-- it, or an element of it, gets a new value -/
  | target
  /-- it, or an element of it, is read and gets a new value -/
  | update
deriving DecidableEq, Repr

/-- a reference in an expression: what is done to the variable, and whether it stands in the left side of a plain
assignment -/
structure Occurrence where
  name : String
  inLeft : Bool
  use : Use
deriving DecidableEq, Repr

mutual

def CExpr.occurrences (inLeft : Bool) : CExpr → List Occurrence
  | .literal _ => []
  | .load _ place => place.occurrences .value inLeft
  | .unary _ e => e.occurrences inLeft
  | .binary _ left right => left.occurrences inLeft ++ right.occurrences inLeft
  | .assign _ lhs rhs => rhs.occurrences inLeft ++ lhs.occurrences .target true
  | .compoundAssign _ lhs rhs => lhs.occurrences .update inLeft ++ rhs.occurrences inLeft
  | .incDec _ place => place.occurrences .update inLeft

/-- the use is that of the place; to find it, indices and pointers are read -/
def Lvalue.occurrences (use : Use) (inLeft : Bool) : Lvalue → List Occurrence
  | .reference _ x => [⟨x.name, inLeft, use⟩]
  | .element _ _ array index => array.occurrences use inLeft ++ index.occurrences inLeft
  | .pointee _ pointer index => pointer.occurrences inLeft ++ index.occurrences inLeft

end

/-- the value of the variable is used -/
def Use.isRead : Use → Bool
  | .value => true
  | .target => false
  | .update => true

/-- the variable gets a new value -/
def Use.isModified : Use → Bool
  | .value => false
  | .target => true
  | .update => true

namespace CExpr

variable (e : CExpr) (x : String)

def Reads : Prop := ∃ o ∈ e.occurrences false, o.name = x ∧ o.use.isRead = true

def Modifies : Prop := ∃ o ∈ e.occurrences false, o.name = x ∧ o.use.isModified = true

/-- the variable occurs in the left side of a plain assignment, or outside -/
def OccursAt (inLeft : Bool) : Prop := ∃ o ∈ e.occurrences false, o.name = x ∧ o.inLeft = inLeft

/-- what is updated occurs inside and outside of left sides, and what is used in a left side for its value occurs
outside too and is modified -/
structure Settled : Prop where
  updates : ∀ o ∈ e.occurrences false, o.use = .update → e.OccursAt o.name true ∧ e.OccursAt o.name false
  values : ∀ o ∈ e.occurrences false, o.use = .value → o.inLeft = true → e.OccursAt o.name false ∧ e.Modifies o.name

end CExpr

/-! ## The tree that the visitor sees -/

mutual

def CExpr.toExpr : CExpr → Expr
  | .literal id => .other id []
  | .load id place => .other id [place.toExpr]
  | .unary id e => .other id [e.toExpr]
  | .binary id left right => .other id [left.toExpr, right.toExpr]
  | .assign id lhs rhs => .binAssign id lhs.toExpr rhs.toExpr
  | .compoundAssign id lhs rhs => .other id [lhs.toExpr, rhs.toExpr]
  | .incDec id place => .other id [place.toExpr]

def Lvalue.toExpr : Lvalue → Expr
  | .reference id x => .declRefExpr id (.var x.name false false x.typeName)
  | .element id decay array index => .other id [.other decay [array.toExpr], index.toExpr]
  | .pointee id pointer index => .other id [pointer.toExpr, index.toExpr]

end

mutual

/-- the nodes of a tree -/
def Expr.ids : Expr → List ℕ
  | .declRefExpr id _ => [id]
  | .binAssign id lhs rhs => id :: (lhs.ids ++ rhs.ids)
  | .artificial id => [id]
  | .other id children => id :: Expr.idsAll children

def Expr.idsAll : List Expr → List ℕ
  | [] => []
  | e :: es => e.ids ++ Expr.idsAll es

end

namespace StatementVisitor

variable {k : VisitContext} {v w : StatementVisitor}

/-- no node of the tree has been visited before -/
def Unseen (k : VisitContext) (e : Expr) : Prop := ∀ id ∈ e.ids, id ∉ k.seenStmt

theorem accesses_declRefExpr {writer : Bool} {id : ℕ} {decl : Decl} (h : Unseen k (.declRefExpr id decl)) :
    accesses k writer (.declRefExpr id decl) = accessOf writer decl := by
  rw [accesses]
  exact if_neg (h id (by simp [Expr.ids]))

theorem accesses_binAssign {writer : Bool} {id : ℕ} {lhs rhs : Expr} (h : Unseen k (.binAssign id lhs rhs)) :
    accesses k writer (.binAssign id lhs rhs) = accesses k writer rhs ++ accesses k true lhs ∧
      Unseen k lhs ∧ Unseen k rhs := by
  rw [accesses]
  refine ⟨if_neg (h id (by simp [Expr.ids])), fun i hi => h i ?_, fun i hi => h i ?_⟩
  · simp [Expr.ids, hi]
  · simp [Expr.ids, hi]

theorem accesses_one {writer : Bool} {id : ℕ} {e : Expr} (h : Unseen k (.other id [e])) :
    accesses k writer (.other id [e]) = accesses k writer e ∧ Unseen k e := by
  rw [accesses]
  refine ⟨(if_neg (h id (by simp [Expr.ids]))).trans ?_, fun i hi => h i ?_⟩
  · simp [accessesAll]
  · simp [Expr.ids, Expr.idsAll, hi]

theorem accesses_two {writer : Bool} {id : ℕ} {e e' : Expr} (h : Unseen k (.other id [e, e'])) :
    accesses k writer (.other id [e, e']) = accesses k writer e ++ accesses k writer e' ∧ Unseen k e ∧ Unseen k e' := by
  rw [accesses]
  refine ⟨(if_neg (h id (by simp [Expr.ids]))).trans ?_, fun i hi => h i ?_, fun i hi => h i ?_⟩
  · simp [accessesAll]
  · simp [Expr.ids, Expr.idsAll, hi]
  · simp [Expr.ids, Expr.idsAll, hi]

/-- what the visitor makes of occurrences -/
def accessesOf (l : List Occurrence) : List (Option Access) := l.map fun o => some ⟨o.name, o.inLeft⟩

theorem accessesOf_append (l l' : List Occurrence) : accessesOf (l ++ l') = accessesOf l ++ accessesOf l' :=
  List.map_append

mutual

/-- **The accesses are the occurrences, and those in a left side are writes.** -/
theorem accesses_toExpr (inLeft : Bool) (e : CExpr) (h : Unseen k e.toExpr) :
    accesses k inLeft e.toExpr = accessesOf (e.occurrences inLeft) := by
  match e with
  | .literal id =>
    rw [CExpr.toExpr] at h ⊢
    rw [accesses]
    exact if_neg (h id (by simp [Expr.ids]))
  | .load id place =>
    rw [CExpr.toExpr] at h ⊢
    obtain ⟨heq, hplace⟩ := accesses_one h
    rw [heq, CExpr.occurrences]
    exact accesses_toExpr_place .value inLeft place hplace
  | .unary id e =>
    rw [CExpr.toExpr] at h ⊢
    obtain ⟨heq, he⟩ := accesses_one h
    rw [heq, CExpr.occurrences]
    exact accesses_toExpr inLeft e he
  | .binary id left right =>
    rw [CExpr.toExpr] at h ⊢
    obtain ⟨heq, hleft, hright⟩ := accesses_two h
    rw [heq, CExpr.occurrences, accessesOf_append, accesses_toExpr inLeft left hleft,
      accesses_toExpr inLeft right hright]
  | .assign id lhs rhs =>
    rw [CExpr.toExpr] at h ⊢
    obtain ⟨heq, hlhs, hrhs⟩ := accesses_binAssign h
    rw [heq, CExpr.occurrences, accessesOf_append, accesses_toExpr inLeft rhs hrhs,
      accesses_toExpr_place .target true lhs hlhs]
  | .compoundAssign id lhs rhs =>
    rw [CExpr.toExpr] at h ⊢
    obtain ⟨heq, hlhs, hrhs⟩ := accesses_two h
    rw [heq, CExpr.occurrences, accessesOf_append, accesses_toExpr_place .update inLeft lhs hlhs,
      accesses_toExpr inLeft rhs hrhs]
  | .incDec id place =>
    rw [CExpr.toExpr] at h ⊢
    obtain ⟨heq, hplace⟩ := accesses_one h
    rw [heq, CExpr.occurrences]
    exact accesses_toExpr_place .update inLeft place hplace

theorem accesses_toExpr_place (use : Use) (inLeft : Bool) (place : Lvalue) (h : Unseen k place.toExpr) :
    accesses k inLeft place.toExpr = accessesOf (place.occurrences use inLeft) := by
  match place with
  | .reference id x =>
    rw [Lvalue.toExpr] at h ⊢
    rw [accesses_declRefExpr h, Lvalue.occurrences, accessOf, if_neg (by simp), if_neg x.isVariable]
    rfl
  | .element id decay array index =>
    rw [Lvalue.toExpr] at h ⊢
    obtain ⟨heq, hdecay, hindex⟩ := accesses_two h
    obtain ⟨heq', harray⟩ := accesses_one hdecay
    rw [heq, heq', Lvalue.occurrences, accessesOf_append, accesses_toExpr_place use inLeft array harray,
      accesses_toExpr inLeft index hindex]
  | .pointee id pointer index =>
    rw [Lvalue.toExpr] at h ⊢
    obtain ⟨heq, hpointer, hindex⟩ := accesses_two h
    rw [heq, Lvalue.occurrences, accessesOf_append, accesses_toExpr inLeft pointer hpointer,
      accesses_toExpr inLeft index hindex]

end

/-! ## Targets -/

mutual

/-- a target stands in the left side of its assignment -/
theorem inLeft_of_target (inLeft : Bool) (e : CExpr) :
    ∀ o ∈ e.occurrences inLeft, o.use = .target → o.inLeft = true := by
  match e with
  | .literal id => simp [CExpr.occurrences]
  | .load id place =>
    rw [CExpr.occurrences]
    exact inLeft_of_target_place .value inLeft place (by simp)
  | .unary id e =>
    rw [CExpr.occurrences]
    exact inLeft_of_target inLeft e
  | .binary id left right =>
    rw [CExpr.occurrences, List.forall_mem_append]
    exact ⟨inLeft_of_target inLeft left, inLeft_of_target inLeft right⟩
  | .assign id lhs rhs =>
    rw [CExpr.occurrences, List.forall_mem_append]
    exact ⟨inLeft_of_target inLeft rhs, inLeft_of_target_place .target true lhs (by simp)⟩
  | .compoundAssign id lhs rhs =>
    rw [CExpr.occurrences, List.forall_mem_append]
    exact ⟨inLeft_of_target_place .update inLeft lhs (by simp), inLeft_of_target inLeft rhs⟩
  | .incDec id place =>
    rw [CExpr.occurrences]
    exact inLeft_of_target_place .update inLeft place (by simp)

theorem inLeft_of_target_place (use : Use) (inLeft : Bool) (place : Lvalue) (h : use = .target → inLeft = true) :
    ∀ o ∈ place.occurrences use inLeft, o.use = .target → o.inLeft = true := by
  match place with
  | .reference id x =>
    rw [Lvalue.occurrences]
    intro o ho hu
    obtain rfl := List.mem_singleton.1 ho
    exact h hu
  | .element id decay array index =>
    rw [Lvalue.occurrences, List.forall_mem_append]
    exact ⟨inLeft_of_target_place use inLeft array h, inLeft_of_target inLeft index⟩
  | .pointee id pointer index =>
    rw [Lvalue.occurrences, List.forall_mem_append]
    exact ⟨inLeft_of_target inLeft pointer, inLeft_of_target inLeft index⟩

end

/-! ## The symbols -/

/-- what is modified is written, what is read is read, and what is only read is not written -/
structure Classified (v w : StatementVisitor) (e : CExpr) : Prop where
  modified : ∀ x, e.Modifies x → Emits v w .write x
  read : ∀ x, e.Reads x → Emits v w .read x
  onlyRead : ∀ x, e.Reads x → ¬e.Modifies x → ¬Emits v w .write x

/-- an access by its position -/
theorem emits_iff_occursAt {e : CExpr} (hs : v.identifierStore.Consistent) (hunseen : Unseen k e.toExpr)
    (h : traverseStmt k false e.toExpr v = .ok w) (x : String) (inLeft : Bool) :
    Emits v w (if inLeft then .write else .read) x ↔ e.OccursAt x inLeft := by
  have hemitted := traverseStmt_emitted hs h
  rw [accesses_toExpr false e hunseen] at hemitted
  refine (hemitted.emits_iff ⟨x, inLeft⟩).trans ?_
  simp [accessesOf, CExpr.OccursAt]

/-- **Classification.** -/
theorem classified_iff {e : CExpr} (hs : v.identifierStore.Consistent) (hunseen : Unseen k e.toExpr)
    (h : traverseStmt k false e.toExpr v = .ok w) : Classified v w e ↔ e.Settled := by
  have hwrite : ∀ x, Emits v w .write x ↔ e.OccursAt x true := fun x => emits_iff_occursAt hs hunseen h x true
  have hread : ∀ x, Emits v w .read x ↔ e.OccursAt x false := fun x => emits_iff_occursAt hs hunseen h x false
  constructor
  · intro hc
    refine ⟨fun o ho hu => ?_, fun o ho hu hleft => ?_⟩
    · have hmod : e.Modifies o.name := ⟨o, ho, rfl, by rw [hu]; rfl⟩
      have hval : e.Reads o.name := ⟨o, ho, rfl, by rw [hu]; rfl⟩
      exact ⟨(hwrite _).1 (hc.modified _ hmod), (hread _).1 (hc.read _ hval)⟩
    · have hval : e.Reads o.name := ⟨o, ho, rfl, by rw [hu]; rfl⟩
      refine ⟨(hread _).1 (hc.read _ hval), ?_⟩
      by_contra hmod
      exact hc.onlyRead _ hval hmod ((hwrite _).2 ⟨o, ho, rfl, hleft⟩)
  · intro hset
    refine ⟨fun x hx => (hwrite x).2 ?_, fun x hx => (hread x).2 ?_, fun x _ hno hx => ?_⟩
    · obtain ⟨o, ho, rfl, hmod⟩ := hx
      cases hu : o.use with
      | value => simp [hu, Use.isModified] at hmod
      | target => exact ⟨o, ho, rfl, inLeft_of_target false e o ho hu⟩
      | update => exact (hset.updates o ho hu).1
    · obtain ⟨o, ho, rfl, hval⟩ := hx
      cases hu : o.use with
      | value =>
        cases hleft : o.inLeft with
        | false => exact ⟨o, ho, rfl, hleft⟩
        | true => exact (hset.values o ho hu hleft).1
      | target => simp [hu, Use.isRead] at hval
      | update => exact (hset.updates o ho hu).2
    · obtain ⟨o, ho, rfl, hleft⟩ := (hwrite x).1 hx
      cases hu : o.use with
      | value => exact hno (hset.values o ho hu hleft).2
      | target => exact hno ⟨o, ho, rfl, by rw [hu]; rfl⟩
      | update => exact hno ⟨o, ho, rfl, by rw [hu]; rfl⟩

/-! ## Two ways to add one -/

def varX : GlobalVariable := ⟨"x", "", by decide⟩

/-- `x = x + 1` -/
def plainIncrement : CExpr := .assign 0 (.reference 1 varX) (.binary 2 (.load 3 (.reference 4 varX)) (.literal 5))

/-- `x += 1` -/
def compoundIncrement : CExpr := .compoundAssign 0 (.reference 1 varX) (.literal 2)

theorem unseen_empty (e : Expr) : Unseen {} e := fun _ _ => List.not_mem_nil

/-- `x = x + 1` reads and then writes `x` -/
theorem plainIncrement_classified : ∃ w, traverseStmt {} false plainIncrement.toExpr { thread := .empty 0 } = .ok w ∧
    Classified { thread := .empty 0 } w plainIncrement := by
  have hocc : plainIncrement.occurrences false = [⟨"x", false, .value⟩, ⟨"x", true, .target⟩] := rfl
  have hok : (traverseStmt {} false plainIncrement.toExpr { thread := .empty 0 }).isOk = true := by decide +kernel
  obtain ⟨w, hw⟩ := exists_ok hok
  refine ⟨w, hw, (classified_iff IdentifierStore.consistent_empty (unseen_empty _) hw).2 ⟨?_, ?_⟩⟩
  · rw [hocc]
    simp
  · rw [hocc]
    simp

/-- `x += 1` only reads it -/
theorem compoundIncrement_not_classified : ¬∀ (k : VisitContext) (v w : StatementVisitor) (e : CExpr),
    v.identifierStore.Consistent → Unseen k e.toExpr → traverseStmt k false e.toExpr v = .ok w → Classified v w e := by
  intro hall
  have hok : (traverseStmt {} false compoundIncrement.toExpr { thread := .empty 0 }).isOk = true := by decide +kernel
  obtain ⟨w, hw⟩ := exists_ok hok
  have hunseen := unseen_empty compoundIncrement.toExpr
  have hc := hall {} { thread := .empty 0 } w compoundIncrement IdentifierStore.consistent_empty hunseen hw
  have hmod : compoundIncrement.Modifies "x" := ⟨⟨"x", false, .update⟩, List.mem_singleton_self _, rfl, rfl⟩
  obtain ⟨o, ho, -, hleft⟩ :=
    (emits_iff_occursAt IdentifierStore.consistent_empty hunseen hw "x" true).1 (hc.modified "x" hmod)
  rw [show compoundIncrement.occurrences false = [⟨"x", false, .update⟩] from rfl, List.mem_singleton] at ho
  rw [ho] at hleft
  exact absurd hleft (by decide)

end StatementVisitor

end Liss
