/-
`synthesis/trace_helpers.cpp`: `remove_duplicates` deletes a clause with one lock if the lock is included in the lock of
another clause that is still there.

The lists are vectors of pointers to symbols, and `search` compares the pointers; `deref` is the symbol behind a
pointer. Two pointers may lead to equal symbols, so inclusion asks for more than equal symbols.

- `testDuplicate_trans`: inclusion is transitive, so every clause that is deleted stays included in one that is left;
- `violatesLock_of_testDuplicate`: a word that violates a lock violates every lock that includes it;
- `removeDuplicates_rejects`: the monitor rejects the same words before and after, as long as the conflicts have
  numbers;
- `removeDuplicates_range`: with more conflicts than numbers the monitor throws before and rejects after.
-/
import Liss.Abstraction.Restricted
import Liss.Lib.Ordered
import Liss.Lib.Prune

namespace Liss.Synthesis

open ConcurrentAutomaton

variable {P : Type*} [DecidableEq P] {deref : P → Symbol}

/-- `front()->thread_id()` -/
def frontId (deref : P → Symbol) (l : List P) : Option ℕ := frontThread (l.map deref)

/-- `sub_vector`: test if `l1` is a sub-vector of `l2` -/
def subVector (deref : P → Symbol) (l1 l2 : List P) : Bool :=
  if l1.length > l2.length then false
  else if frontId deref l1 ≠ frontId deref l2 then false
  else decide (l1 <:+: l2)

/-- `test_duplicate`: if `l1` is included in `l2` return true -/
def testDuplicate (deref : P → Symbol) (l1 l2 : List (List P)) : Bool :=
  match l1, l2 with
  | [l1a, l1b], [l2a, l2b] =>
    subVector deref l1a l2a && subVector deref l1b l2b || subVector deref l1a l2b && subVector deref l1b l2a
  | _, _ => false

/-- the test for two clauses: both have one lock, and the first one is included in the second -/
def duplicateOf (deref : P → Symbol) (d d2 : Disj (List (List P))) : Bool :=
  match d, d2 with
  | [dl], [dl2] => testDuplicate deref dl dl2
  | _, _ => false

/-- `remove_duplicates` -/
def removeDuplicates (deref : P → Symbol) (locks : Cnf (List (List P))) : Cnf (List (List P)) :=
  prune (duplicateOf deref) locks

/-- the lists of symbols behind the lists of pointers -/
def derefLists (deref : P → Symbol) (lists : List (List P)) : LockLists := lists.map (List.map deref)

def derefClause (deref : P → Symbol) (d : Disj (List (List P))) : Disj LockLists := d.map (derefLists deref)

def derefLocks (deref : P → Symbol) (locks : Cnf (List (List P))) : LockSymbols := locks.map (derefClause deref)

/-! ## Inclusion -/

theorem subVector_iff {l1 l2 : List P} :
    subVector deref l1 l2 = true ↔ frontId deref l1 = frontId deref l2 ∧ l1 <:+: l2 := by
  unfold subVector
  split_ifs with hlen hfront
  · simp only [false_iff, not_and]
    exact fun _ h => absurd h.length_le (by omega)
  · simp [hfront]
  · simp [not_not.1 hfront]

theorem subVector_trans {l1 l2 l3 : List P} (h1 : subVector deref l1 l2 = true) (h2 : subVector deref l2 l3 = true) :
    subVector deref l1 l3 = true := by
  rw [subVector_iff] at *
  exact ⟨h1.1.trans h2.1, h1.2.trans h2.2⟩

/-- the two lists of the first lock are sub-vectors of the two lists of the second, in one of the two pairings -/
theorem testDuplicate_iff {l1 l2 : List (List P)} : testDuplicate deref l1 l2 = true ↔
    ∃ a b a' b', l1 = [a, b] ∧ (l2 = [a', b'] ∨ l2 = [b', a']) ∧ subVector deref a a' = true ∧
      subVector deref b b' = true := by
  constructor
  · intro h
    unfold testDuplicate at h
    split at h
    · rename_i a b a' b'
      rw [Bool.or_eq_true, Bool.and_eq_true, Bool.and_eq_true] at h
      rcases h with ⟨ha, hb⟩ | ⟨ha, hb⟩
      · exact ⟨a, b, a', b', rfl, Or.inl rfl, ha, hb⟩
      · exact ⟨a, b, b', a', rfl, Or.inr rfl, ha, hb⟩
    · simp at h
  · rintro ⟨a, b, a', b', rfl, rfl | rfl, ha, hb⟩
    · simp [testDuplicate, ha, hb]
    · simp [testDuplicate, ha, hb]

theorem testDuplicate_trans {l1 l2 l3 : List (List P)} (h1 : testDuplicate deref l1 l2 = true)
    (h2 : testDuplicate deref l2 l3 = true) : testDuplicate deref l1 l3 = true := by
  obtain ⟨a, b, a', b', rfl, hl2, ha, hb⟩ := testDuplicate_iff.1 h1
  obtain ⟨x, y, x', y', heq, hl3, hx, hy⟩ := testDuplicate_iff.1 h2
  rw [testDuplicate_iff]
  rcases hl2 with rfl | rfl
  · simp only [List.cons.injEq, and_true] at heq
    obtain ⟨rfl, rfl⟩ := heq
    exact ⟨a, b, x', y', rfl, hl3, subVector_trans ha hx, subVector_trans hb hy⟩
  · -- the sides are exchanged
    simp only [List.cons.injEq, and_true] at heq
    obtain ⟨rfl, rfl⟩ := heq
    exact ⟨a, b, y', x', rfl, hl3.symm, subVector_trans ha hy, subVector_trans hb hx⟩

theorem duplicateOf_iff {d d2 : Disj (List (List P))} :
    duplicateOf deref d d2 = true ↔ ∃ dl dl2, d = [dl] ∧ d2 = [dl2] ∧ testDuplicate deref dl dl2 = true := by
  constructor
  · intro h
    unfold duplicateOf at h
    split at h
    · rename_i dl dl2
      exact ⟨dl, dl2, rfl, rfl, h⟩
    · simp at h
  · rintro ⟨dl, dl2, rfl, rfl, h⟩
    exact h

theorem duplicateOf_trans (deref : P → Symbol) (d1 d2 d3 : Disj (List (List P))) (h1 : duplicateOf deref d1 d2 = true)
    (h2 : duplicateOf deref d2 d3 = true) : duplicateOf deref d1 d3 = true := by
  obtain ⟨l1, l2, rfl, rfl, h1⟩ := duplicateOf_iff.1 h1
  obtain ⟨l2', l3, heq, rfl, h2⟩ := duplicateOf_iff.1 h2
  obtain rfl := (List.cons.inj heq).1
  exact duplicateOf_iff.2 ⟨l1, l3, rfl, rfl, testDuplicate_trans h1 h2⟩

/-! ## Violations -/

theorem neighbours_of_infix {it it2 : LockList} (h : it <:+: it2) {uv : Symbol × Symbol} (huv : uv ∈ neighbours it) :
    uv ∈ neighbours it2 := by
  simp only [neighbours] at huv ⊢
  rw [← pair_infix_iff_zip] at huv ⊢
  exact huv.trans (h.filter _)

/-- what the lists of a lock say about a lock with larger lists of the same threads -/
theorem violatesLock_mono {lock lock2 : LockLists} (h : ∀ it ∈ lock, ∃ it2 ∈ lock2, frontThread it = frontThread it2 ∧
    it <:+: it2) {ev : List Symbol} (hv : ViolatesLock lock ev) : ViolatesLock lock2 ev := by
  obtain ⟨pre, x, b, y, post, heq, hxy, hb, it, hit, uv, huv, hu, hv, s, hs, it', hit', hne, hin⟩ := hv
  obtain ⟨it2, hit2, hfront, hsub⟩ := h it hit
  obtain ⟨it2', hit2', hfront', hsub'⟩ := h it' hit'
  refine ⟨pre, x, b, y, post, heq, hxy, hb, it2, hit2, uv, neighbours_of_infix hsub huv, hu, hv, s, hs, it2', hit2',
    ?_, ?_⟩
  · rwa [← hfront, ← hfront']
  · obtain ⟨t, ht, heq⟩ := Symbol.isIn_iff.1 hin
    exact Symbol.isIn_iff.2 ⟨t, hsub'.subset ht, heq⟩

/-- **A word that violates a lock violates every lock that includes it.** -/
theorem violatesLock_of_testDuplicate {dl dl2 : List (List P)} (h : testDuplicate deref dl dl2 = true) {ev : List Symbol}
    (hv : ViolatesLock (derefLists deref dl) ev) : ViolatesLock (derefLists deref dl2) ev := by
  obtain ⟨a, b, a', b', rfl, hl2, ha, hb⟩ := testDuplicate_iff.1 h
  rw [subVector_iff] at ha hb
  have hmem : a' ∈ dl2 ∧ b' ∈ dl2 := by
    rcases hl2 with rfl | rfl
    · simp
    · simp
  apply violatesLock_mono _ hv
  intro it hit
  obtain ⟨l, hl, rfl⟩ := List.mem_map.1 hit
  rcases List.mem_cons.1 hl with rfl | hl
  · exact ⟨_, List.mem_map_of_mem hmem.1, ha.1, ha.2.map deref⟩
  · rw [List.mem_singleton.1 hl]
    exact ⟨_, List.mem_map_of_mem hmem.2, hb.1, hb.2.map deref⟩

theorem violatesClause_of_duplicateOf {d d2 : Disj (List (List P))} (h : duplicateOf deref d d2 = true)
    {ev : List Symbol} (hv : ViolatesClause (derefClause deref d) ev) : ViolatesClause (derefClause deref d2) ev := by
  obtain ⟨dl, dl2, rfl, rfl, h⟩ := duplicateOf_iff.1 h
  intro lock hlock
  rw [List.mem_singleton.1 hlock]
  exact violatesLock_of_testDuplicate h (hv _ (List.mem_singleton_self _))

/-! ## The monitor before and after -/

section
variable {locks : Cnf (List (List P))}

theorem derefLocks_sublist : (derefLocks deref (removeDuplicates deref locks)).Sublist (derefLocks deref locks) :=
  (prune_sublist locks).map _

/-- a word violates a clause of the shorter list if it violates one of the list -/
theorem violates_removeDuplicates (deref : P → Symbol) (locks : Cnf (List (List P))) (ev : List Symbol) :
    (∃ cl ∈ derefLocks deref locks, cl ≠ [] ∧ ViolatesClause cl ev) ↔
      ∃ cl ∈ derefLocks deref (removeDuplicates deref locks), cl ≠ [] ∧ ViolatesClause cl ev := by
  constructor
  · intro ⟨cl, hcl, hne, hv⟩
    obtain ⟨d, hd, rfl⟩ := List.mem_map.1 hcl
    rcases mem_or_below_of_prune (duplicateOf_trans deref) hd with hleft | ⟨d2, hleft, hdup⟩
    · exact ⟨_, List.mem_map_of_mem hleft, hne, hv⟩
    · obtain ⟨dl, dl2, rfl, rfl, -⟩ := duplicateOf_iff.1 hdup
      exact ⟨_, List.mem_map_of_mem hleft, by simp [derefClause], violatesClause_of_duplicateOf hdup hv⟩
  · intro ⟨cl, hcl, hne, hv⟩
    exact ⟨cl, derefLocks_sublist.subset hcl, hne, hv⟩

end

/-- the automaton with the forbidden traces of all calls -/
def watching (p : Program) (concurrent deadlock : Bool) (calls : List LockSymbols) : ConcurrentAutomaton :=
  calls.foldl addForbiddenTraces (ofProgram p concurrent deadlock)

/-- the monitor of the initial state rejects the word -/
def Rejects (a : ConcurrentAutomaton) (w : List Symbol) : Prop := a.monitorRun a.startMonitor w = .ok none

theorem length_conflicts_watching (p : Program) (concurrent deadlock : Bool) (calls : List LockSymbols) :
    (watching p concurrent deadlock calls).conflicts.length = (calls.flatten.map conflictCount).sum := by
  induction calls using List.reverseRecOn with
  | nil => rfl
  | append_singleton calls new ih =>
    rw [watching] at ih ⊢
    rw [List.foldl_append, List.foldl_cons, List.foldl_nil, length_conflicts_addForbiddenTraces, ih]
    simp

theorem rejects_watching_iff {p : Program} {concurrent deadlock : Bool} {calls : List LockSymbols}
    (hwf : WellFormedClauses calls.flatten) (hsize : (calls.flatten.map conflictCount).sum ≤ maxPayload + 1)
    (w : List Symbol) : Rejects (watching p concurrent deadlock calls) w ↔
      ∃ cl ∈ calls.flatten, cl ≠ [] ∧ ViolatesClause cl (events w) := by
  obtain ⟨⟨entries, hi⟩, hpad, -⟩ := installed_addForbiddenTraces p concurrent deadlock calls
  have hlen : entries.length ≤ maxPayload + 1 := by
    rw [← length_conflicts_watching p concurrent deadlock, watching, hi.conflicts, List.length_map] at hsize
    exact hsize
  exact monitorRun_none_iff hi hpad hwf (handled_of_length hlen w)

/-- **`remove_duplicates` never weakens the locks.** -/
theorem removeDuplicates_rejects (deref : P → Symbol) (locks : Cnf (List (List P)))
    (hwf : WellFormedClauses (derefLocks deref locks)) (p : Program) (concurrent deadlock : Bool)
    (calls : List LockSymbols) (hcalls : WellFormedClauses calls.flatten) :
    (∃ removed, locks.Perm (removeDuplicates deref locks ++ removed) ∧
      ∀ cl ∈ removed, ∃ cl2 ∈ removeDuplicates deref locks, duplicateOf deref cl cl2 = true) ∧
    (((calls.flatten ++ derefLocks deref locks).map conflictCount).sum ≤ maxPayload + 1 → ∀ w,
      (Rejects (watching p concurrent deadlock (calls ++ [derefLocks deref locks])) w ↔
        Rejects (watching p concurrent deadlock (calls ++ [derefLocks deref (removeDuplicates deref locks)])) w)) := by
  refine ⟨prune_covers (duplicateOf_trans deref) locks, ?_⟩
  intro hsize w
  have hflat : ∀ new : LockSymbols, (calls ++ [new]).flatten = calls.flatten ++ new := by simp
  have hsub : (calls.flatten ++ derefLocks deref (removeDuplicates deref locks)).Sublist
      (calls.flatten ++ derefLocks deref locks) := derefLocks_sublist.append_left _
  have hwf' : WellFormedClauses (calls.flatten ++ derefLocks deref locks) := by
    intro cl hcl
    exact (List.mem_append.1 hcl).elim (hcalls cl) (hwf cl)
  have hsize' := (hsub.map conflictCount).sum_le_sum (by simp)
  rw [rejects_watching_iff (by rw [hflat]; exact hwf') (by rw [hflat]; exact hsize),
    rejects_watching_iff (by rw [hflat]; exact fun cl hcl => hwf' cl (hsub.subset hcl)) (by rw [hflat]; omega),
    hflat, hflat]
  -- the clauses of the calls before are the same
  simp only [List.mem_append, or_and_right, exists_or]
  rw [violates_removeDuplicates]

/-- two equal clauses on two threads: one of them goes -/
theorem removeDuplicates_twice : removeDuplicates id [[[[write1, write2], [writeOther]]], [[[write1, write2],
    [writeOther]]]] = [[[[write1, write2], [writeOther]]]] ∧
    Rejects (watching lockedProgram true false [[[[[write1, write2], [writeOther]]]]])
      [write1, writeOther, write2] := by
  have h := removeDuplicates_rejects id [[[[write1, write2], [writeOther]]], [[[write1, write2], [writeOther]]]]
    (by intro cl hcl lock hlock; revert cl lock; decide) lockedProgram true false [] (by simp [WellFormedClauses])
  have hone : removeDuplicates id [[[[write1, write2], [writeOther]]], [[[write1, write2], [writeOther]]]] =
      [[[[write1, write2], [writeOther]]]] := by decide
  rw [hone] at h
  refine ⟨hone, (h.2 (by decide) _).1 ?_⟩
  unfold Rejects
  decide

/-! ## More conflicts than numbers -/

/-- two writes that a write of the other thread must not separate -/
def twoWrites : Disj LockLists := [[[write1, write2], [writeOther]]]

theorem removeDuplicates_replicate (n : ℕ) :
    removeDuplicates id (List.replicate (n + 1) twoWrites) = [twoWrites] := by
  have hstep : ∀ n, pruneFrom (duplicateOf id) [] (List.replicate (n + 1) twoWrites) = [twoWrites] := by
    intro n
    induction n with
    | zero => decide
    | succ n ih =>
      have hany : ([] ++ List.replicate (n + 1) twoWrites).any (duplicateOf id twoWrites) = true :=
        List.any_eq_true.2 ⟨twoWrites, by simp, by decide⟩
      rw [List.replicate_succ, pruneFrom, if_pos hany]
      exact ih
  exact hstep n

theorem watching_replicate (n : ℕ) : watching lockedProgram true false [List.replicate n twoWrites] =
    (ofProgram lockedProgram true false).addEntries (List.replicate n (write1, ⟨[writeOther], write2, none⟩)) := by
  have hfold : ∀ a : ConcurrentAutomaton, (List.replicate n twoWrites).foldl addClause a =
      a.addEntries (List.replicate n (write1, ⟨[writeOther], write2, none⟩)) :=
    foldl_addClause_replicate (by decide) (by decide) n
  simp only [watching, List.foldl_cons, List.foldl_nil, addForbiddenTraces, hfold]
  rfl

/-- with `n` equal clauses the first write already asks for the number 32767 -/
theorem applyBadTraceDnf_replicate {n : ℕ} (hn : n = 32768) :
    (watching lockedProgram true false [List.replicate n twoWrites]).applyBadTraceDnf ⟨[], []⟩ write1 =
      .error .rangeError := by
  have hmap : (watching lockedProgram true false [List.replicate n twoWrites]).conflictMap =
      (List.replicate n (write1, (⟨[writeOther], write2, none⟩ : ConflictInfo))).mapIdx fun i e => (e.1, 0 + i) := by
    rw [watching_replicate]
    rfl
  have hmem : 32767 ∈ ((watching lockedProgram true false [List.replicate n twoWrites]).conflictMap.filter
      fun e => e.1.equals write1).map Prod.snd := by
    rw [hmap]
    refine List.mem_map.2 ⟨(write1, 32767), List.mem_filter.2 ⟨List.mem_mapIdx.2 ⟨32767, ?_, ?_⟩, by decide⟩, rfl⟩
    · rw [List.length_replicate]
      omega
    · simp
  have hnone := foldlM_register_none hmem (ConflictT.ofIndex_eq_none.2 (by decide)) []
  have hskip : (write1.isRealEpsilon || write1.operation == .tag) = false := rfl
  simp only [applyBadTraceDnf, hskip, List.filter_nil, List.foldl_nil, List.foldlM_nil, pure]
  rw [hnone]
  rfl

/-- 32768 equal clauses have more conflicts than there are numbers, and the one that is left has one -/
theorem removeDuplicates_range :
    ¬ ∀ locks : LockSymbols, WellFormedClauses locks →
      (∃ removed, locks.Perm (removeDuplicates id locks ++ removed) ∧
        ∀ cl ∈ removed, ∃ cl2 ∈ removeDuplicates id locks, duplicateOf id cl cl2 = true) ∧
      ∀ (p : Program) (concurrent deadlock : Bool) (w : List Symbol),
        (Rejects (watching p concurrent deadlock [locks]) w ↔
          Rejects (watching p concurrent deadlock [removeDuplicates id locks]) w) := by
  intro hall
  obtain ⟨n, hn⟩ : ∃ n, n = 32767 := ⟨_, rfl⟩
  have hwf : WellFormedClauses (List.replicate (n + 1) twoWrites) := by
    intro cl hcl lock hlock
    rw [List.eq_of_mem_replicate hcl] at hlock
    rw [List.mem_singleton.1 hlock]
    decide
  have hiff := (hall _ hwf).2 lockedProgram true false [write1, writeOther, write2]
  rw [removeDuplicates_replicate] at hiff
  have hafter : Rejects (watching lockedProgram true false [[twoWrites]]) [write1, writeOther, write2] := by
    unfold Rejects
    decide
  have hbefore := hiff.2 hafter
  have hstart : (watching lockedProgram true false [List.replicate (n + 1) twoWrites]).startMonitor = ⟨[], []⟩ := by
    rw [watching_replicate]
    rfl
  rw [Rejects, hstart, monitorRun, applyBadTraceDnf_replicate (by omega)] at hbefore
  simp at hbefore

end Liss.Synthesis
