/-
`place_locks::remove_duplicates` as it is written: two loops over indices, of which the inner one erases elements of the
vector that both run over. An erased element makes the next one take its index, which `--j` accounts for.

- `removeLoop_eq`: the loops erase each element that is the same as an earlier one, which is what `removeDuplicates`
  does;
- `countP_removeDuplicates`: of the elements of one kind for a lock at a source location one is left if there is any;
- `placement_printed`: what is left of the true entries of an assignment is what it places at each source location.
-/
import Liss.Placement.Deadlock

namespace Liss.PlaceLocks

/-! ## The loops -/

section

variable {α : Type*} (same : α → α → Bool)

/-- the inner loop, from `j` on -/
def removeFrom (i j : ℕ) (locks : List α) : List α :=
  if h : i < locks.length ∧ j < locks.length then
    if same locks[i] locks[j] then removeFrom i j (locks.eraseIdx j) else removeFrom i (j + 1) locks
  else locks
termination_by locks.length - j
decreasing_by
  · rw [List.length_eraseIdx_of_lt h.2]
    omega
  · omega

/-- the inner loop erases what is the same as the element of the outer one -/
theorem removeFrom_eq {i j : ℕ} {locks : List α} {a : α} (hi : locks[i]? = some a) (hij : i < j) :
    removeFrom same i j locks = locks.take j ++ (locks.drop j).filter fun b => !same a b := by
  fun_induction removeFrom same i j locks with
  | case1 j locks h hsame ih =>
    have ha : locks[i] = a := (List.getElem?_eq_some_iff.1 hi).2
    have hdrop : locks.drop j = locks[j] :: locks.drop (j + 1) := List.drop_eq_getElem_cons h.2
    have herase : locks.eraseIdx j = locks.take j ++ locks.drop (j + 1) := List.eraseIdx_eq_take_drop_succ locks j
    have hlen : (locks.take j).length = j := List.length_take_of_le h.2.le
    rw [ih ((List.getElem?_eraseIdx_of_lt hij).trans hi) hij, herase, List.take_left' hlen, List.drop_left' hlen, hdrop,
      List.filter_cons_of_neg]
    rw [ha] at hsame
    simp [hsame]
  | case2 j locks h hsame ih =>
    have ha : locks[i] = a := (List.getElem?_eq_some_iff.1 hi).2
    have hdrop : locks.drop j = locks[j] :: locks.drop (j + 1) := List.drop_eq_getElem_cons h.2
    rw [ha] at hsame
    rw [ih hi (Nat.lt_succ_of_lt hij), hdrop, List.filter_cons_of_pos (by simpa using hsame),
      List.take_succ_eq_append_getElem h.2, List.append_assoc, List.singleton_append]
  | case3 j locks h =>
    have hle : locks.length ≤ j := by
      have := (List.getElem?_eq_some_iff.1 hi).1
      omega
    rw [List.take_of_length_le hle, List.drop_of_length_le hle, List.filter_nil, List.append_nil]

theorem length_removeFrom_le (i j : ℕ) (locks : List α) : (removeFrom same i j locks).length ≤ locks.length := by
  fun_induction removeFrom same i j locks with
  | case1 j locks h hsame ih => exact ih.trans (List.length_eraseIdx_le locks j)
  | case2 j locks h hsame ih => exact ih
  | case3 j locks h => exact le_rfl

/-- the outer loop, from `i` on -/
def removeLoop (i : ℕ) (locks : List α) : List α :=
  if i < locks.length then removeLoop (i + 1) (removeFrom same i (i + 1) locks) else locks
termination_by locks.length - i
decreasing_by
  have := length_removeFrom_le same i (i + 1) locks
  omega

theorem removeLoop_drop (i : ℕ) (locks : List α) :
    removeLoop same i locks = locks.take i ++ (locks.drop i).eraseDupsBy fun b a => same a b := by
  fun_induction removeLoop same i locks with
  | case1 i locks h ih =>
    have hi : locks[i]? = some locks[i] := List.getElem?_eq_getElem h
    have hdrop : locks.drop i = locks[i] :: locks.drop (i + 1) := List.drop_eq_getElem_cons h
    have hlen : (locks.take (i + 1)).length = i + 1 := List.length_take_of_le h
    rw [ih, removeFrom_eq same hi (Nat.lt_succ_self i), List.take_left' hlen, List.drop_left' hlen, hdrop,
      List.eraseDupsBy_cons, List.take_succ_eq_append_getElem h, List.append_assoc, List.singleton_append]
    simp
  | case2 i locks h =>
    rw [List.take_of_length_le (not_lt.1 h), List.drop_of_length_le (not_lt.1 h), List.eraseDupsBy_nil, List.append_nil]

end

/-! ## The elements that are kept -/

variable {m : LockAssignment} {n : ℕ} {threads : List AbstractCfg} {ord : HashOrder} {l : List SinglePlacement}

theorem foldl_kept (l kept : List SinglePlacement) :
    l.foldl (fun kept p => if kept.any fun q => sameInstruction threads q p then kept else kept ++ [p]) kept =
      kept ++ (l.filter fun p => !kept.any fun q => sameInstruction threads q p).eraseDupsBy
        fun b a => sameInstruction threads a b := by
  induction l generalizing kept with
  | nil => simp
  | cons p l ih =>
    rw [List.foldl_cons, ih]
    by_cases hany : (kept.any fun q => sameInstruction threads q p) = true
    · rw [if_pos hany, List.filter_cons_of_neg (by simp [hany])]
    · rw [if_neg hany, List.filter_cons_of_pos (by simpa using hany), List.eraseDupsBy_cons, List.filter_filter,
        List.append_assoc, List.singleton_append]
      congr 4
      funext q
      simp [List.any_append, Bool.and_comm]

/-- **The loops.** -/
theorem removeLoop_eq (l : List SinglePlacement) :
    removeLoop (sameInstruction threads) 0 l = removeDuplicates threads l := by
  rw [removeLoop_drop, removeDuplicates, foldl_kept]
  simp

/-- an element of a kind, for a lock, at a source location -/
def atSource (threads : List AbstractCfg) (lockT : LockType) (position : PositionType) (lock source : ℕ)
    (p : SinglePlacement) : Bool :=
  p.lock = lock && p.lockT = lockT && p.position = position && sourceOf threads position p.location = some source

theorem atSource_iff {lockT : LockType} {position : PositionType} {lock source : ℕ} {p : SinglePlacement} :
    atSource threads lockT position lock source p = true ↔ p.lock = lock ∧ p.lockT = lockT ∧ p.position = position ∧
      sourceOf threads position p.location = some source := by
  simp [atSource, and_assoc]

/-- two of them are the same -/
theorem sameInstruction_of_atSource {lockT : LockType} {position : PositionType} {lock source : ℕ}
    {p q : SinglePlacement} (hp : atSource threads lockT position lock source p = true)
    (hq : atSource threads lockT position lock source q = true) : sameInstruction threads p q = true := by
  obtain ⟨hl, ht, hpos, hs⟩ := atSource_iff.1 hp
  obtain ⟨hl', ht', hpos', hs'⟩ := atSource_iff.1 hq
  refine (sameInstruction_iff threads).2 ⟨hl.trans hl'.symm, ht.trans ht'.symm, hpos.trans hpos'.symm, ?_⟩
  rw [hpos, hpos', hs, hs']

/-- and what is the same as one of them is one of them -/
theorem atSource_of_same {lockT : LockType} {position : PositionType} {lock source : ℕ} {p q : SinglePlacement}
    (hp : atSource threads lockT position lock source p = true) (hsame : sameInstruction threads q p = true) :
    atSource threads lockT position lock source q = true := by
  obtain ⟨hl, ht, hpos, hs⟩ := atSource_iff.1 hp
  obtain ⟨hl', ht', hpos', hs'⟩ := (sameInstruction_iff threads).1 hsame
  refine atSource_iff.2 ⟨hl'.trans hl, ht'.trans ht, hpos'.trans hpos, ?_⟩
  rw [← hs, ← hpos, ← hs', hpos', hpos]

theorem countP_le_one {α : Type*} {r : α → α → Prop} {f : α → Bool} {l : List α} (hl : l.Pairwise r)
    (hf : ∀ a b, f a = true → f b = true → ¬r a b) : l.countP f ≤ 1 := by
  rw [List.countP_eq_length_filter]
  have hpair := hl.filter f
  match hfl : l.filter f with
  | [] => exact Nat.zero_le 1
  | [a] => exact le_rfl
  | a :: b :: rest =>
    have hmem : ∀ x ∈ a :: b :: rest, f x = true := by
      intro x hx
      rw [← hfl] at hx
      exact (List.mem_filter.1 hx).2
    rw [hfl] at hpair
    have hab := List.rel_of_pairwise_cons hpair (List.mem_cons_self (a := b))
    exact absurd hab (hf a b (hmem a (by simp)) (hmem b (by simp)))

/-- **One of each kind is left.** -/
theorem countP_removeDuplicates (l : List SinglePlacement) (lockT : LockType) (position : PositionType)
    (lock source : ℕ) :
    (removeDuplicates threads l).countP (atSource threads lockT position lock source) =
      if l.any (atSource threads lockT position lock source) then 1 else 0 := by
  split_ifs with hany
  · obtain ⟨p, hp, hat⟩ := List.any_eq_true.1 hany
    obtain ⟨q, hq, hsame⟩ := exists_kept threads hp
    apply le_antisymm
    · apply countP_le_one (removeDuplicates_pairwise threads l)
      intro a b ha hb hne
      rw [sameInstruction_of_atSource ha hb] at hne
      exact absurd hne (by simp)
    · exact List.one_le_countP_iff.2 ⟨q, hq, atSource_of_same hat hsame⟩
  · rw [List.countP_eq_zero]
    intro p hp hat
    exact hany (List.any_eq_true.2 ⟨p, mem_of_mem_removeDuplicates threads hp, hat⟩)

/-! ## The printed operations -/

/-- the states with a source location -/
def AtLocation (threads : List AbstractCfg) (position : PositionType) (source : ℕ) (x : Location) : Prop :=
  (∃ c, threads[x.thread]? = some c ∧ x.state ∈ stateIds c) ∧ sourceOf threads position x = some source

/-- one operation is left if some state has it set, which then all of them have, and none otherwise -/
structure Printed (m : LockAssignment) (threads : List AbstractCfg) (l : List SinglePlacement) (lockT : LockType)
    (position : PositionType) (lock source : ℕ) : Prop where
  one : (∃ x, AtLocation threads position source x ∧ placed m lockT position x lock = true) →
    (∀ x, AtLocation threads position source x → placed m lockT position x lock = true) ∧
      l.countP (atSource threads lockT position lock source) = 1
  none : (¬∃ x, AtLocation threads position source x ∧ placed m lockT position x lock = true) →
    l.countP (atSource threads lockT position lock source) = 0

/-- **The printed operations are those of the assignment.** -/
theorem placement_printed (h : addConstraints m (List.range n) ord threads = true)
    (hl : ∀ p, p ∈ l ↔ p ∈ entries m n threads p.lockT p.position) :
    (∀ lockT position lock source, lock < n →
        Printed m threads (removeLoop (sameInstruction threads) 0 l) lockT position lock source) ∧
      ∀ p ∈ removeLoop (sameInstruction threads) 0 l, (sourceOf threads p.position p.location).isSome = true := by
  rw [removeLoop_eq]
  refine ⟨fun lockT position lock source hlock => ?_, fun p hp => ?_⟩
  · have hany : l.any (atSource threads lockT position lock source) = true ↔
        ∃ x, AtLocation threads position source x ∧ placed m lockT position x lock = true := by
      rw [List.any_eq_true]
      constructor
      · intro hex
        obtain ⟨p, hp, hat⟩ := hex
        obtain ⟨rfl, rfl, rfl, hs⟩ := atSource_iff.1 hat
        obtain ⟨-, -, -, hstate, hplaced⟩ := mem_entries.1 ((hl p).1 hp)
        exact ⟨p.location, ⟨hstate, hs⟩, hplaced⟩
      · intro hex
        obtain ⟨x, hx, hplaced⟩ := hex
        exact ⟨⟨lock, lockT, position, x⟩, (hl _).2 (mem_entries.2 ⟨hlock, rfl, rfl, hx.1, hplaced⟩),
          atSource_iff.2 ⟨rfl, rfl, rfl, hx.2⟩⟩
    refine ⟨fun hex => ⟨fun y hy => ?_, ?_⟩, fun hno => ?_⟩
    · obtain ⟨x, ⟨⟨c, hc, hi⟩, hs⟩, hplaced⟩ := hex
      obtain ⟨⟨c', hc', hi'⟩, hs'⟩ := hy
      rw [← hplaced]
      exact placed_same h hc' hi' hc hi (List.mem_range.2 hlock) lockT position hs' hs
    · rw [countP_removeDuplicates, if_pos (hany.2 hex)]
    · rw [countP_removeDuplicates, if_neg fun hh => hno (hany.1 hh)]
  · obtain ⟨hlock, -, -, ⟨c, hc, hi⟩, hplaced⟩ := mem_entries.1 ((hl p).1 (mem_of_mem_removeDuplicates threads hp))
    rw [Option.isSome_iff_ne_none]
    intro hnone
    rw [(placed_source h hc hi (List.mem_range.2 hlock) p.position).1 hnone] at hplaced
    exact absurd hplaced (by simp)

/-- both threads run the write, and its lock is printed once -/
theorem bothWrite_printed : addConstraints oneWriteLocks (List.range 1) ⟨id, fun _ => .refl _⟩ bothWrite = true ∧
    (removeLoop (sameInstruction bothWrite) 0 (toPlace oneWriteLocks 1 bothWrite ⟨id, fun _ => .refl _⟩)).countP
      (atSource bothWrite .lock .before 0 1) = 1 := by
  have hc : addConstraints oneWriteLocks (List.range 1) ⟨id, fun _ => .refl _⟩ bothWrite = true := by decide
  have hplaced : AtLocation bothWrite .before 1 ⟨0, 2⟩ := ⟨⟨oneWrite, rfl, by decide⟩, by decide⟩
  have hprinted := (placement_printed hc fun p => mem_toPlace (p := p) ⟨id, fun _ => .refl _⟩).1 .lock .before 0 1
    Nat.zero_lt_one
  exact ⟨hc, (hprinted.one ⟨⟨0, 2⟩, hplaced, by decide⟩).2⟩

end Liss.PlaceLocks
