/-
What a list of clauses forbids, and what `add_forbidden_traces` puts into the automaton for it.

A clause is a disjunction of locks: it is violated when all its locks are. A lock is violated when a thread takes two
steps in a row that are neighbours in one of the lists of the lock, and in between another thread has taken a step that
is in one of the other lists.

- `installed_addForbiddenTraces`: after any sequence of calls the tables of the automaton are those of the clauses in
  order. The locks of the clauses with several locks are numbered through (`lockTable`), each lock has one entry for
  each pair of neighbours and each other list, and each clause with several locks has one pattern, the interval of its
  lock numbers.
-/
import Liss.Lib.Since
import Liss.Abstraction.ConcurrentAutomaton

namespace Liss

/-! ## Violations -/

/-- the symbols that the monitor looks at -/
def isEvent (sy : Symbol) : Bool := !(sy.isRealEpsilon || sy.operation == .tag)

def events (w : List Symbol) : List Symbol := w.filter isEvent

/-- `x` and `y` are steps of one thread, neighbours in a list of the lock, and `b`, what happens in between, has a step
of another list -/
def ViolatesLock (lock : LockLists) (ev : List Symbol) : Prop :=
  ∃ pre x b y post, ev = pre ++ x :: (b ++ y :: post) ∧ x.threadId = y.threadId ∧ (∀ s ∈ b, s.threadId ≠ y.threadId) ∧
    ∃ it ∈ lock, ∃ uv ∈ ConcurrentAutomaton.neighbours it, uv.1.equals x = true ∧ uv.2.equals y = true ∧
      ∃ s ∈ b, ∃ it2 ∈ lock, ConcurrentAutomaton.frontThread it ≠ ConcurrentAutomaton.frontThread it2 ∧
        s.isIn it2 = true

/-- a clause is a disjunction of locks -/
def ViolatesClause (clause : Disj LockLists) (ev : List Symbol) : Prop := ∀ lock ∈ clause, ViolatesLock lock ev

theorem ViolatesLock.append {lock : LockLists} {ev : List Symbol} (h : ViolatesLock lock ev) (ev' : List Symbol) :
    ViolatesLock lock (ev ++ ev') := by
  obtain ⟨pre, x, b, y, post, rfl, hrest⟩ := h
  exact ⟨pre, x, b, y, post ++ ev', by simp, hrest⟩

/-- the lists of a lock are non-empty, each with symbols of one thread -/
def SingleThreaded (lock : LockLists) : Prop :=
  ∀ it ∈ lock, it ≠ [] ∧ ∀ x ∈ it, ∀ y ∈ it, x.threadId = y.threadId

instance (lock : LockLists) : Decidable (SingleThreaded lock) := inferInstanceAs (Decidable (∀ it ∈ lock, _ ∧ _))

namespace ConcurrentAutomaton

/-! ## The tables -/

/-- the locks that get a number: those of the clauses with several locks -/
def lockTable (clauses : List (Disj LockLists)) : List LockLists := (clauses.filter fun cl => cl.length > 1).flatten

/-- the entries of the locks of one clause, numbered from `k` on -/
def lockEntries : ℕ → Disj LockLists → List (Symbol × ConflictInfo)
  | _, [] => []
  | k, lock :: locks => lockConflicts lock (some k) ++ lockEntries (k + 1) locks

/-- the pattern of a clause: its lock numbers, among `n` -/
def interval (n start len : ℕ) : List Bool := (List.range n).map fun i => decide (start ≤ i ∧ i < start + len)

/-- the entries of a clause -/
def clauseEntries (k : ℕ) (clause : Disj LockLists) : List (Symbol × ConflictInfo) :=
  if clause.length > 1 then lockEntries k clause else clause.flatMap fun lock => lockConflicts lock none

/-- the pattern belongs to one of the clauses -/
def PatternOf (clauses : List (Disj LockLists)) (n : ℕ) (bad : List Bool) : Prop :=
  ∃ pre cl post, clauses = pre ++ cl :: post ∧ 1 < cl.length ∧ bad = interval n (lockTable pre).length cl.length

/-- the tables of `a` are those of the clauses; `entries` lists the conflicts with the past symbol of each -/
structure Installed (a : ConcurrentAutomaton) (clauses : List (Disj LockLists))
    (entries : List (Symbol × ConflictInfo)) : Prop where
  conflicts : a.conflicts = entries.map Prod.snd
  conflictMap : a.conflictMap = entries.mapIdx fun i e => (e.1, i)
  locksSize : a.locksSize = (lockTable clauses).length
  mem_entries : ∀ e, e ∈ entries ↔ (∃ lock, [lock] ∈ clauses ∧ e ∈ lockConflicts lock none) ∨
    ∃ l lock, (lockTable clauses)[l]? = some lock ∧ e ∈ lockConflicts lock (some l)
  length_locks : ∀ bad ∈ a.locks, bad.length ≤ a.locksSize
  mem_locks : ∀ n, a.locksSize ≤ n → ∀ bad, bad ∈ a.locks.map (resize n) ↔ PatternOf clauses n bad

theorem lockTable_append (cls cls' : List (Disj LockLists)) :
    lockTable (cls ++ cls') = lockTable cls ++ lockTable cls' := by
  simp [lockTable]

theorem lockTable_multiple {cl : Disj LockLists} (h : 1 < cl.length) : lockTable [cl] = cl := by
  simp [lockTable, h]

theorem lockTable_single {cl : Disj LockLists} (h : ¬1 < cl.length) : lockTable [cl] = [] := by
  simp [lockTable, h]

theorem patternOf_snoc {clauses : List (Disj LockLists)} {cl : Disj LockLists} {n : ℕ} {bad : List Bool} :
    PatternOf (clauses ++ [cl]) n bad ↔
      PatternOf clauses n bad ∨ (1 < cl.length ∧ bad = interval n (lockTable clauses).length cl.length) := by
  unfold PatternOf
  constructor
  · rintro ⟨pre, cl', post, heq, hlen, hbad⟩
    rcases snoc_eq_append_cons.1 heq with ⟨rfl, rfl, -⟩ | ⟨post', -, hcls⟩
    · exact Or.inr ⟨hlen, hbad⟩
    · exact Or.inl ⟨pre, cl', post', hcls, hlen, hbad⟩
  · rintro (⟨pre, cl', post, rfl, hlen, hbad⟩ | ⟨hlen, hbad⟩)
    · exact ⟨pre, cl', post ++ [cl], by simp, hlen, hbad⟩
    · exact ⟨clauses, cl, [], by simp, hlen, hbad⟩

theorem resize_of_length {n : ℕ} {bits : List Bool} (h : bits.length = n) : resize n bits = bits := by
  simp [resize, ← h]

theorem resize_resize {m n : ℕ} {bits : List Bool} (h : bits.length ≤ m) (hmn : m ≤ n) :
    resize n (resize m bits) = resize n bits := by
  simp only [resize, List.take_of_length_le h, List.length_append, List.length_replicate]
  rw [List.take_of_length_le (by simp; omega), List.take_of_length_le (by omega), List.append_assoc,
    List.replicate_append_replicate]
  congr 2
  omega

/-- the bits of a new pattern, padded later -/
theorem resize_pattern {n k len : ℕ} (h : k + len ≤ n) :
    resize n (List.replicate k false ++ List.replicate len true) = interval n k len := by
  refine List.ext_getElem (by simp [resize, interval]; omega) fun i h1 h2 => ?_
  have hi : i < n := by simpa [interval] using h2
  simp only [resize, interval, List.getElem_map, List.getElem_range, List.length_append, List.length_replicate]
  rw [List.getElem_append]
  split_ifs with h3
  · rw [List.getElem_take, List.getElem_append]
    split_ifs with h4
    · simp at h4 ⊢
      omega
    · simp at h3 h4 ⊢
      omega
  · simp at h3 ⊢
    omega

/-! ## The loops of `add_forbidden_traces` -/

theorem mem_lockEntries {k : ℕ} {cl : Disj LockLists} {e : Symbol × ConflictInfo} :
    e ∈ lockEntries k cl ↔ ∃ i lock, cl[i]? = some lock ∧ e ∈ lockConflicts lock (some (k + i)) := by
  induction cl generalizing k with
  | nil => simp [lockEntries]
  | cons lock cl ih =>
    rw [lockEntries, List.mem_append, ih]
    constructor
    · rintro (h | ⟨i, lock', hi, h⟩)
      · exact ⟨0, lock, rfl, h⟩
      · exact ⟨i + 1, lock', hi, by rwa [← Nat.add_assoc, Nat.add_right_comm]⟩
    · rintro ⟨i, lock', hi, h⟩
      cases i with
      | zero =>
        obtain rfl : lock = lock' := by simpa using hi
        exact Or.inl h
      | succ i => exact Or.inr ⟨i, lock', by simpa using hi, by rwa [Nat.add_right_comm, Nat.add_assoc]⟩

/-- the tables after entries have been added -/
def addEntries (a : ConcurrentAutomaton) (new : List (Symbol × ConflictInfo)) : ConcurrentAutomaton :=
  { a with
    conflicts := a.conflicts ++ new.map Prod.snd
    conflictMap := a.conflictMap ++ new.mapIdx fun i e => (e.1, a.conflicts.length + i) }

theorem addEntries_addEntries (a : ConcurrentAutomaton) (new new' : List (Symbol × ConflictInfo)) :
    (a.addEntries new).addEntries new' = a.addEntries (new ++ new') := by
  simp only [addEntries, List.map_append, List.append_assoc, List.length_append, List.length_map, List.mapIdx_append]
  congr 4
  ext i e
  · rfl
  · show a.conflicts.length + new.length + i = a.conflicts.length + (i + new.length)
    omega

theorem addEntries_nil (a : ConcurrentAutomaton) : a.addEntries [] = a := by simp [addEntries]

theorem foldl_addLock_single (a : ConcurrentAutomaton) (cl : Disj LockLists) :
    cl.foldl (addLock false) a = a.addEntries (cl.flatMap fun lock => lockConflicts lock none) := by
  induction cl generalizing a with
  | nil => simp [addEntries_nil]
  | cons lock cl ih =>
    have hstep : addLock false a lock = a.addEntries (lockConflicts lock none) := rfl
    rw [List.foldl_cons, ih, hstep, addEntries_addEntries, List.flatMap_cons]

theorem foldl_addLock_multiple (cl : Disj LockLists) (a : ConcurrentAutomaton) {old : List (List Bool)}
    {pat : List Bool} (h : a.locks = old ++ [pat]) :
    cl.foldl (addLock true) a =
      { a.addEntries (lockEntries a.locksSize cl) with
        locks := old ++ [pat ++ List.replicate cl.length true], locksSize := a.locksSize + cl.length } := by
  induction cl generalizing a pat with
  | nil => simp [lockEntries, addEntries_nil, ← h]
  | cons lock cl ih =>
    have hstep : addLock true a lock =
        { a.addEntries (lockConflicts lock (some a.locksSize)) with
          locks := old ++ [pat ++ [true]], locksSize := a.locksSize + 1 } := by
      have hmod : a.locks.modify (a.locks.length - 1) (· ++ [true]) = old ++ [pat ++ [true]] := by
        rw [h]
        refine List.ext_getElem? fun i => ?_
        simp only [List.getElem?_modify, List.length_append, List.length_singleton, Nat.add_sub_cancel]
        by_cases hi : old.length = i
        · subst hi
          simp
        · rcases Nat.lt_or_gt_of_ne hi with hlt | hlt
          · simp [List.getElem?_append, hi, Nat.not_lt_of_gt hlt, show i - old.length ≠ 0 by omega]
          · simp [List.getElem?_append, hi, hlt]
      simp only [addLock, if_true, hmod, addEntries]
    rw [List.foldl_cons, hstep, ih _ rfl]
    simp only [lockEntries, List.length_cons, List.append_assoc]
    have hadd := addEntries_addEntries a (lockConflicts lock (some a.locksSize)) (lockEntries (a.locksSize + 1) cl)
    have hconf := congrArg conflicts hadd
    have hmap := congrArg conflictMap hadd
    simp only [addEntries] at hconf hmap ⊢
    rw [hconf, hmap]
    simp only [mk.injEq, true_and]
    exact ⟨by rw [List.singleton_append, List.replicate_succ], by omega⟩

/-- the settings of the automaton, which `add_forbidden_traces` leaves alone -/
def SameSettings (a b : ConcurrentAutomaton) : Prop :=
  a.threads = b.threads ∧ a.concurrent = b.concurrent ∧ a.deadlock = b.deadlock ∧ a.successorFilter = b.successorFilter

theorem addClause_single {cl : Disj LockLists} (h : ¬1 < cl.length) (a : ConcurrentAutomaton) :
    addClause a cl = a.addEntries (clauseEntries a.locksSize cl) := by
  simp only [addClause, clauseEntries, gt_iff_lt, h, decide_false, Bool.false_eq_true, if_false, foldl_addLock_single]

theorem addClause_multiple {cl : Disj LockLists} (h : 1 < cl.length) (a : ConcurrentAutomaton) :
    addClause a cl =
      { a.addEntries (clauseEntries a.locksSize cl) with
        locks := a.locks ++ [List.replicate a.locksSize false ++ List.replicate cl.length true]
        locksSize := a.locksSize + cl.length } := by
  simp only [addClause, clauseEntries, gt_iff_lt, h, decide_true, if_true]
  rw [foldl_addLock_multiple cl _ rfl]
  simp [addEntries]

/-! ## The number of conflicts -/

/-- how many conflicts a clause has -/
def conflictCount (clause : Disj LockLists) : ℕ := (clause.map fun lock => (lockConflicts lock none).length).sum

/-- the lock number does not matter for it -/
theorem length_lockConflicts (lock : LockLists) (id : Option ℕ) :
    (lockConflicts lock id).length = (lockConflicts lock none).length := by
  have hmap : lockConflicts lock id = (lockConflicts lock none).map fun e => (e.1, { e.2 with lockId := id }) := by
    simp only [lockConflicts, List.map_flatMap, List.map_filterMap]
    refine List.flatMap_congr fun it _ => List.flatMap_congr fun pc _ => List.filterMap_congr fun it2 _ => ?_
    split_ifs <;> rfl
  rw [hmap, List.length_map]

theorem length_clauseEntries (k : ℕ) (clause : Disj LockLists) :
    (clauseEntries k clause).length = conflictCount clause := by
  have hmultiple : ∀ k, (lockEntries k clause).length = conflictCount clause := by
    induction clause with
    | nil => exact fun _ => rfl
    | cons lock clause ih =>
      intro k
      rw [lockEntries, List.length_append, length_lockConflicts, ih, conflictCount, conflictCount, List.map_cons,
        List.sum_cons]
  unfold clauseEntries
  split_ifs
  · exact hmultiple k
  · rw [List.length_flatMap, conflictCount]

theorem length_conflicts_addClause (a : ConcurrentAutomaton) (cl : Disj LockLists) :
    (addClause a cl).conflicts.length = a.conflicts.length + conflictCount cl := by
  rw [← length_clauseEntries a.locksSize cl]
  by_cases hcl : 1 < cl.length
  · rw [addClause_multiple hcl]
    simp [addEntries]
  · rw [addClause_single hcl]
    simp [addEntries]

theorem length_conflicts_addForbiddenTraces (a : ConcurrentAutomaton) (new : LockSymbols) :
    (a.addForbiddenTraces new).conflicts.length = a.conflicts.length + (new.map conflictCount).sum := by
  suffices h : ∀ a : ConcurrentAutomaton,
      (new.foldl addClause a).conflicts.length = a.conflicts.length + (new.map conflictCount).sum from h a
  induction new with
  | nil => simp
  | cons cl new ih =>
    intro a
    rw [List.foldl_cons, ih, length_conflicts_addClause, List.map_cons, List.sum_cons, Nat.add_assoc]

/-- a clause with one conflict, many times -/
theorem foldl_addClause_replicate {cl : Disj LockLists} (hcl : ¬1 < cl.length) {e : Symbol × ConflictInfo}
    (he : clauseEntries 0 cl = [e]) (n : ℕ) (a : ConcurrentAutomaton) :
    (List.replicate n cl).foldl addClause a = a.addEntries (List.replicate n e) := by
  have hentries : ∀ k, clauseEntries k cl = [e] := by
    intro k
    rw [← he, clauseEntries, clauseEntries, if_neg hcl, if_neg hcl]
  induction n generalizing a with
  | zero => simp [addEntries_nil]
  | succ n ih =>
    rw [List.replicate_succ, List.foldl_cons, ih, addClause_single hcl, hentries, addEntries_addEntries]
    rfl

section
variable {a : ConcurrentAutomaton} {clauses : List (Disj LockLists)} {entries : List (Symbol × ConflictInfo)}

theorem installed_ofProgram (p : Program) (concurrent deadlock : Bool) :
    (ofProgram p concurrent deadlock).Installed [] [] := by
  refine ⟨rfl, rfl, rfl, ?_, ?_, ?_⟩ <;> simp [ofProgram, lockTable, PatternOf]

theorem mem_clauseEntries_single {cl : Disj LockLists} (h : ¬1 < cl.length) {k : ℕ} {e : Symbol × ConflictInfo} :
    e ∈ clauseEntries k cl ↔ ∃ lock, [lock] = cl ∧ e ∈ lockConflicts lock none := by
  rw [clauseEntries, if_neg h]
  match cl, h with
  | [], _ => simp
  | [lock], _ => simp
  | _ :: _ :: _, h => simp at h

/-- the conflicts and the map after new entries -/
theorem Installed.addEntries (h : a.Installed clauses entries) (new : List (Symbol × ConflictInfo)) :
    (a.addEntries new).conflicts = (entries ++ new).map Prod.snd ∧
      (a.addEntries new).conflictMap = (entries ++ new).mapIdx fun i e => (e.1, i) := by
  simp only [ConcurrentAutomaton.addEntries, h.conflicts, h.conflictMap, List.map_append, List.mapIdx_append,
    List.length_map, true_and]
  congr 2
  ext i e
  · rfl
  · exact Nat.add_comm _ _

/-- the entries when the locks of a clause get numbers -/
theorem Installed.mem_multiple (h : a.Installed clauses entries) {cl : Disj LockLists} (hcl : 1 < cl.length)
    (e : Symbol × ConflictInfo) :
    e ∈ entries ++ clauseEntries a.locksSize cl ↔ (∃ lock, [lock] ∈ clauses ++ [cl] ∧ e ∈ lockConflicts lock none) ∨
      ∃ l lock, (lockTable (clauses ++ [cl]))[l]? = some lock ∧ e ∈ lockConflicts lock (some l) := by
  have hne : ∀ lock, [lock] ≠ cl := by
    rintro lock rfl
    simp at hcl
  rw [List.mem_append, h.mem_entries, clauseEntries, if_pos hcl, mem_lockEntries, lockTable_append,
    lockTable_multiple hcl, h.locksSize]
  simp only [List.mem_append, List.mem_singleton, hne, or_false]
  constructor
  · rintro ((h1 | ⟨l, lock, hl, h1⟩) | ⟨i, lock, hi, h1⟩)
    · exact Or.inl h1
    · exact Or.inr ⟨l, lock, by rw [List.getElem?_append_left (List.getElem?_eq_some_iff.1 hl).1]; exact hl, h1⟩
    · refine Or.inr ⟨_, lock, ?_, h1⟩
      rw [List.getElem?_append_right (by omega), Nat.add_sub_cancel_left]
      exact hi
  · rintro (h1 | ⟨l, lock, hl, h1⟩)
    · exact Or.inl (Or.inl h1)
    · rw [List.getElem?_append] at hl
      split_ifs at hl with hlt
      · exact Or.inl (Or.inr ⟨l, lock, hl, h1⟩)
      · refine Or.inr ⟨_, lock, hl, ?_⟩
        rwa [Nat.add_sub_cancel' (by omega)]

/-- the entries when the lock of a clause gets none -/
theorem Installed.mem_single (h : a.Installed clauses entries) {cl : Disj LockLists} (hcl : ¬1 < cl.length)
    (e : Symbol × ConflictInfo) :
    e ∈ entries ++ clauseEntries a.locksSize cl ↔ (∃ lock, [lock] ∈ clauses ++ [cl] ∧ e ∈ lockConflicts lock none) ∨
      ∃ l lock, (lockTable (clauses ++ [cl]))[l]? = some lock ∧ e ∈ lockConflicts lock (some l) := by
  rw [List.mem_append, h.mem_entries, mem_clauseEntries_single hcl, lockTable_append, lockTable_single hcl,
    List.append_nil]
  simp only [List.mem_append, List.mem_singleton]
  constructor
  · rintro ((⟨lock, h1, h2⟩ | h1) | ⟨lock, h1, h2⟩)
    · exact Or.inl ⟨lock, Or.inl h1, h2⟩
    · exact Or.inr h1
    · exact Or.inl ⟨lock, Or.inr h1, h2⟩
  · rintro (⟨lock, h1 | h1, h2⟩ | h1)
    · exact Or.inl (Or.inl ⟨lock, h1, h2⟩)
    · exact Or.inr ⟨lock, h1, h2⟩
    · exact Or.inl (Or.inr h1)

theorem Installed.addClause (h : a.Installed clauses entries) (cl : Disj LockLists) :
    (addClause a cl).Installed (clauses ++ [cl]) (entries ++ clauseEntries a.locksSize cl) := by
  obtain ⟨hc, hm⟩ := h.addEntries (clauseEntries a.locksSize cl)
  by_cases hcl : 1 < cl.length
  · rw [addClause_multiple hcl]
    refine ⟨hc, hm, ?_, h.mem_multiple hcl, fun bad hbad => ?_, fun n hn bad => ?_⟩
    · rw [lockTable_append, lockTable_multiple hcl, List.length_append]
      exact congrArg (· + cl.length) h.locksSize
    · rcases List.mem_append.1 hbad with hb | hb
      · exact (h.length_locks bad hb).trans (Nat.le_add_right _ _)
      · rw [List.mem_singleton.1 hb]
        simp
    · have hn' : a.locksSize + cl.length ≤ n := hn
      rw [patternOf_snoc, ← h.mem_locks n (by omega), ← h.locksSize, List.map_append, List.mem_append,
        List.map_singleton, List.mem_singleton, resize_pattern hn']
      simp [hcl]
  · rw [addClause_single hcl]
    refine ⟨hc, hm, ?_, h.mem_single hcl, h.length_locks, fun n hn bad => ?_⟩
    · rw [lockTable_append, lockTable_single hcl, List.append_nil]
      exact h.locksSize
    · rw [patternOf_snoc, ← h.mem_locks n hn bad]
      simp [hcl, ConcurrentAutomaton.addEntries]

theorem Installed.addClauses (h : a.Installed clauses entries) (new : LockSymbols) :
    ∃ entries', (new.foldl ConcurrentAutomaton.addClause a).Installed (clauses ++ new) (entries ++ entries') := by
  induction new generalizing a clauses entries with
  | nil => exact ⟨[], by simpa using h⟩
  | cons cl new ih =>
    obtain ⟨entries', h'⟩ := ih (h.addClause cl)
    exact ⟨clauseEntries a.locksSize cl ++ entries', by simpa [List.append_assoc] using h'⟩

/-- all patterns have been padded -/
def Padded (a : ConcurrentAutomaton) : Prop := ∀ bad ∈ a.locks, bad.length = a.locksSize

theorem Installed.addForbiddenTraces (h : a.Installed clauses entries) (new : LockSymbols) :
    ∃ entries', (a.addForbiddenTraces new).Installed (clauses ++ new) (entries ++ entries') := by
  obtain ⟨entries', h'⟩ := h.addClauses new
  refine ⟨entries', h'.conflicts, h'.conflictMap, h'.locksSize, h'.mem_entries, fun bad hbad => ?_, fun n hn bad => ?_⟩
  · obtain ⟨bits, hbits, rfl⟩ := List.mem_map.1 hbad
    have := h'.length_locks bits hbits
    simp only [resize, List.length_append, List.length_take, List.length_replicate]
    show _ ≤ (new.foldl ConcurrentAutomaton.addClause a).locksSize
    omega
  · rw [← h'.mem_locks n hn bad]
    simp only [ConcurrentAutomaton.addForbiddenTraces, List.map_map, List.mem_map, Function.comp_apply]
    have hres : ∀ bits ∈ (new.foldl ConcurrentAutomaton.addClause a).locks,
        resize n (resize (new.foldl ConcurrentAutomaton.addClause a).locksSize bits) = resize n bits :=
      fun bits hbits => resize_resize (h'.length_locks bits hbits) hn
    constructor
    · rintro ⟨bits, hbits, rfl⟩
      exact ⟨bits, hbits, (hres bits hbits).symm⟩
    · rintro ⟨bits, hbits, rfl⟩
      exact ⟨bits, hbits, hres bits hbits⟩

theorem padded_addForbiddenTraces (a : ConcurrentAutomaton) (new : LockSymbols) (h : a.Installed clauses entries) :
    (a.addForbiddenTraces new).Padded := by
  obtain ⟨entries', h'⟩ := h.addClauses new
  intro bad hbad
  obtain ⟨bits, hbits, rfl⟩ := List.mem_map.1 hbad
  have := h'.length_locks bits hbits
  simp [resize, ConcurrentAutomaton.addForbiddenTraces]
  omega

theorem sameSettings_addForbiddenTraces (a : ConcurrentAutomaton) (new : LockSymbols) :
    SameSettings (a.addForbiddenTraces new) a := by
  suffices h : ∀ new : LockSymbols, SameSettings (new.foldl ConcurrentAutomaton.addClause a) a from h new
  intro new
  induction new using List.reverseRecOn with
  | nil => exact ⟨rfl, rfl, rfl, rfl⟩
  | append_singleton new cl ih =>
    rw [List.foldl_append, List.foldl_cons, List.foldl_nil]
    by_cases hcl : 1 < cl.length
    · rw [addClause_multiple hcl]
      exact ih
    · rw [addClause_single hcl]
      exact ih

end

/-- **The tables after any number of calls.** -/
theorem installed_addForbiddenTraces (p : Program) (concurrent deadlock : Bool) (calls : List LockSymbols) :
    let a := calls.foldl addForbiddenTraces (ofProgram p concurrent deadlock)
    (∃ entries, a.Installed calls.flatten entries) ∧ a.Padded ∧ SameSettings a (ofProgram p concurrent deadlock) := by
  induction calls using List.reverseRecOn with
  | nil => exact ⟨⟨[], installed_ofProgram p concurrent deadlock⟩, by simp [Padded, ofProgram], rfl, rfl, rfl, rfl⟩
  | append_singleton calls new ih =>
    obtain ⟨⟨entries, hi⟩, -, h1, h2, h3, h4⟩ := ih
    simp only [List.foldl_append, List.foldl_cons, List.foldl_nil, List.flatten_append, List.flatten_singleton]
    obtain ⟨entries', hi'⟩ := hi.addForbiddenTraces new
    obtain ⟨s1, s2, s3, s4⟩ := sameSettings_addForbiddenTraces (calls.foldl addForbiddenTraces
      (ofProgram p concurrent deadlock)) new
    exact ⟨⟨_, hi'⟩, padded_addForbiddenTraces _ new hi, s1.trans h1, s2.trans h2, s3.trans h3, s4.trans h4⟩

end ConcurrentAutomaton

end Liss
