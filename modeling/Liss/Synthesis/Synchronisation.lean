/-
`synthesis/synchronisation.h`, `synthesis/synchronisation.cpp`: the inference of locks from a clause.

Two constraints of a clause that run between the same two threads in opposite directions give a lock: its two sections
are spanned by the ends of the constraints in each thread. The counter in the names of the locks, and the merging of
locks, which is switched off, are left out.

- `lock_overlap`: in an ordering in which all constraints of the clause are false the two sections overlap.
-/
import Liss.Synthesis.Orderings

namespace Liss.Synthesis

/-! ## `find_lock` -/

/-- a section, its two ends swapped if they are in the wrong order -/
def spanned (l l' : TraceLocation) : LockLocation :=
  if l.instructionId > l'.instructionId then ⟨l', l⟩ else ⟨l, l'⟩

/-- the condition on the ends, as the source has it -/
def isLock (loc1a loc1b loc2a loc2b : TraceLocation) : Bool :=
  loc1a.threadId == loc1b.threadId && loc2a.threadId == loc2b.threadId &&
    ((decide (loc1a.instructionId ≥ loc1b.instructionId) && decide (loc2a.instructionId ≥ loc2b.instructionId)) ||
      (decide (loc1a.instructionId ≥ loc1b.instructionId) && decide (loc2a.instructionId ≤ loc2b.instructionId)) ||
      (decide (loc1a.instructionId ≤ loc1b.instructionId) && decide (loc2a.instructionId ≥ loc2b.instructionId)) ||
      (loc1a.instructionId == loc1b.instructionId && decide (loc2a.instructionId ≤ loc2b.instructionId)) ||
      (decide (loc1a.instructionId ≤ loc1b.instructionId) && loc2a.instructionId == loc2b.instructionId))

/-- the loop body of `find_lock`, for two constraints -/
def lockOf (allowOnlyWeak : Bool) (a b : ConstraintAtom) : Option Lock :=
  if (!a.fromWaitNotify || !b.fromWaitNotify || allowOnlyWeak) && isLock a.before b.after b.before a.after then
    let section1 := spanned a.before b.after
    let section2 := spanned b.before a.after
    -- the sections are ordered by thread number
    if section1.start.threadId > section2.start.threadId then some ⟨[section1, section2]⟩
    else some ⟨[section2, section1]⟩
  else none

/-- the two loops of `find_lock` -/
def findLockFrom (allowOnlyWeak : Bool) : List ConstraintAtom → List Lock
  | [] => []
  | a :: rest => rest.filterMap (lockOf allowOnlyWeak a) ++ findLockFrom allowOnlyWeak rest

/-- `find_lock`: the locks it finds; it returns whether there are any -/
def findLock (disjunct : Disj ConstraintAtom) (allowOnlyWeak : Bool) : Disj Lock :=
  if disjunct.length ≥ 2 then findLockFrom allowOnlyWeak disjunct else []

/-- the loop body of `generate_sync` -/
def inferLocks (d : Disj ConstraintAtom) : Disj Lock :=
  if (findLock d false).isEmpty then findLock d true else findLock d false

/-- `generate_sync` -/
def generateSync (cnfWeak : Cnf ConstraintAtom) : Cnf Lock := cnfWeak.map inferLocks

/-! ## The locks it finds -/

variable {w : List Symbol} {d : Disj ConstraintAtom} {allowOnlyWeak : Bool} {lock : Lock}

theorem mem_findLockFrom (h : lock ∈ findLockFrom allowOnlyWeak d) :
    ∃ a ∈ d, ∃ b ∈ d, lockOf allowOnlyWeak a b = some lock := by
  induction d with
  | nil => simp [findLockFrom] at h
  | cons a rest ih =>
    rcases List.mem_append.1 h with h | h
    · obtain ⟨b, hb, hl⟩ := List.mem_filterMap.1 h
      exact ⟨a, List.mem_cons_self, b, List.mem_cons_of_mem _ hb, hl⟩
    · obtain ⟨a', ha', b, hb, hl⟩ := ih h
      exact ⟨a', List.mem_cons_of_mem _ ha', b, List.mem_cons_of_mem _ hb, hl⟩

theorem mem_findLock (h : lock ∈ findLock d allowOnlyWeak) :
    ∃ a ∈ d, ∃ b ∈ d, lockOf allowOnlyWeak a b = some lock := by
  unfold findLock at h
  split_ifs at h
  · exact mem_findLockFrom h
  · simp at h

theorem mem_inferLocks (h : lock ∈ inferLocks d) : ∃ allowOnlyWeak, lock ∈ findLock d allowOnlyWeak := by
  unfold inferLocks at h
  split_ifs at h
  · exact ⟨true, h⟩
  · exact ⟨false, h⟩

/-- the sections of a lock are spanned by the ends of two constraints -/
theorem lockOf_eq_some {a b : ConstraintAtom} (h : lockOf allowOnlyWeak a b = some lock) :
    a.before.threadId = b.after.threadId ∧ b.before.threadId = a.after.threadId ∧
      (lock.locations = [spanned a.before b.after, spanned b.before a.after] ∨
        lock.locations = [spanned b.before a.after, spanned a.before b.after]) := by
  unfold lockOf at h
  split_ifs at h with h1
  simp only [isLock, Bool.and_eq_true, beq_iff_eq] at h1
  refine ⟨h1.2.1.1, h1.2.1.2, ?_⟩
  dsimp only at h
  split_ifs at h
  · exact Or.inl (by rw [← Option.some.inj h])
  · exact Or.inr (by rw [← Option.some.inj h])

/-- both ends of a constraint are in the section they span -/
theorem spanned_le {a : Assignment} (h : KeepsThreadOrder w a) {l l' : TraceLocation} (hl : l ∈ splitTrace w)
    (hl' : l' ∈ splitTrace w) (ht : l.threadId = l'.threadId) :
    a (spanned l l').start.position ≤ a l.position ∧ a (spanned l l').start.position ≤ a l'.position ∧
      a l.position ≤ a (spanned l l').fin.position ∧ a l'.position ≤ a (spanned l l').fin.position := by
  have hmono : ∀ x ∈ splitTrace w, ∀ y ∈ splitTrace w, x.threadId = y.threadId → x.position ≤ y.position →
      a x.position ≤ a y.position := by
    intro x hx y hy hxy hle
    rcases hle.lt_or_eq with hlt | heq
    · exact (h.order x hx y hy hxy hlt).le
    · rw [heq]
  unfold spanned TraceLocation.instructionId
  split_ifs with hgt
  · exact ⟨hmono _ hl' _ hl ht.symm hgt.le, le_refl _, le_refl _, hmono _ hl' _ hl ht.symm hgt.le⟩
  · exact ⟨le_refl _, hmono _ hl _ hl' ht (Nat.le_of_not_lt hgt), hmono _ hl _ hl' ht (Nat.le_of_not_lt hgt), le_refl _⟩

/-- the locations of a clause are locations of the trace -/
def OverTrace (w : List Symbol) (d : List ConstraintAtom) : Prop :=
  ∀ ca ∈ d, ca.before ∈ splitTrace w ∧ ca.after ∈ splitTrace w

/-- the sections of a lock, in terms of locations of the trace -/
structure IsSection (w : List Symbol) (x : LockLocation) : Prop where
  start : x.start ∈ splitTrace w
  fin : x.fin ∈ splitTrace w
  thread : x.start.threadId = x.fin.threadId
  le : x.start.position ≤ x.fin.position

theorem isSection_spanned {l l' : TraceLocation} (hl : l ∈ splitTrace w) (hl' : l' ∈ splitTrace w)
    (ht : l.threadId = l'.threadId) : IsSection w (spanned l l') := by
  unfold spanned TraceLocation.instructionId
  split_ifs with hgt
  · exact ⟨hl', hl, ht.symm, hgt.le⟩
  · exact ⟨hl, hl', ht, Nat.le_of_not_lt hgt⟩

theorem threadId_spanned {l l' : TraceLocation} (ht : l.threadId = l'.threadId) :
    (spanned l l').start.threadId = l.threadId := by
  unfold spanned
  split_ifs
  · exact ht.symm
  · rfl

/-- two sections overlap in an ordering -/
def Overlap (a : Assignment) (x y : LockLocation) : Prop :=
  a x.start.position < a y.fin.position ∧ a y.start.position < a x.fin.position

/-- **When all constraints of a clause are false, the two sections of each lock overlap.** -/
theorem lock_overlap {a : Assignment} (h : KeepsThreadOrder w a) (hd : OverTrace w d)
    (hfalse : ∀ ca ∈ d, a ca.after.position < a ca.before.position) (hl : lock ∈ findLock d allowOnlyWeak) :
    ∃ x y, lock.locations = [x, y] ∧ IsSection w x ∧ IsSection w y ∧ Overlap a x y ∧
      ((∀ ca ∈ d, ca.before.threadId ≠ ca.after.threadId) → x.start.threadId ≠ y.start.threadId) := by
  obtain ⟨ca, hca, cb, hcb, hlock⟩ := mem_findLock hl
  obtain ⟨ht1, ht2, hloc⟩ := lockOf_eq_some hlock
  have hs1 := isSection_spanned (hd ca hca).1 (hd cb hcb).2 ht1
  have hs2 := isSection_spanned (hd cb hcb).1 (hd ca hca).2 ht2
  obtain ⟨-, h1b, h1a, -⟩ := spanned_le h (hd ca hca).1 (hd cb hcb).2 ht1
  obtain ⟨-, h2b, h2a, -⟩ := spanned_le h (hd cb hcb).1 (hd ca hca).2 ht2
  have hfa := hfalse ca hca
  have hfb := hfalse cb hcb
  have hthread : (∀ ca ∈ d, ca.before.threadId ≠ ca.after.threadId) →
      (spanned ca.before cb.after).start.threadId ≠ (spanned cb.before ca.after).start.threadId := by
    intro hne
    rw [threadId_spanned ht1, threadId_spanned ht2, ht2]
    exact hne ca hca
  rcases hloc with hloc | hloc
  · exact ⟨_, _, hloc, hs1, hs2, ⟨by omega, by omega⟩, hthread⟩
  · exact ⟨_, _, hloc, hs2, hs1, ⟨by omega, by omega⟩, fun hne => (hthread hne).symm⟩

end Liss.Synthesis
