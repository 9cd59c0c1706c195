/-
The handles of conflicts.

The number of a conflict is an index of `conflicts`, cut to 16 bits before `tagged_int` looks at it. Up to 65535 a
number that is too high is noticed and a `range_error` is thrown. From 65536 on the check sees what is left of the
number, and the handle may be that of an older conflict.

- `neverAliased_of_le`: with at most 65536 conflicts every handle addresses the conflict that it was made for;
- `neverAliased_iff`: this is so exactly if no symbol registers a number from 65536 on without a number that is noticed.
-/
import Liss.Synthesis.Progress

namespace Liss.Synthesis

open ConcurrentAutomaton

variable {a : ConcurrentAutomaton} {sigma : Symbol}

/-- the numbers of the conflicts with the past symbol `sigma` -/
def registered (a : ConcurrentAutomaton) (sigma : Symbol) : List ℕ :=
  (a.conflictMap.filter fun e => e.1.equals sigma).map Prod.snd

/-- the handle belongs to conflict `n`, and so does the one with the tag -/
structure HandleOf (a : ConcurrentAutomaton) (n : ℕ) (c : ConflictT) : Prop where
  payload : c.payload = n
  clear : c.test = false
  info : a.conflicts[n]? = some (a.info c)
  tagged : c.set.payload = n ∧ c.set.test = true ∧ a.info c.set = a.info c

/-- a step that registers conflicts throws, or puts a handle of each of them into the state -/
def NeverAliased (a : ConcurrentAutomaton) : Prop :=
  ∀ (m m' : Monitor) (sigma : Symbol), isEvent sigma = true → a.applyBadTraceDnf m sigma = .ok (some m') →
    ∀ n ∈ registered a sigma, ∃ c ∈ m'.conflicts, HandleOf a n c

/-- the number is found too high after it has been cut -/
def Noticed (n : ℕ) : Prop := maxPayload < n % 65536

/-- no symbol registers a number from 65536 on without one that is noticed -/
def Separate (a : ConcurrentAutomaton) : Prop :=
  ∀ sigma : Symbol, isEvent sigma = true →
    (∀ n ∈ registered a sigma, n < 65536) ∨ ∃ n ∈ registered a sigma, Noticed n

/-! ## Registration -/

/-- the numbers are the indices of the conflicts -/
theorem registered_lt (p : Program) (concurrent deadlock : Bool) (calls : List LockSymbols) {n : ℕ}
    (hn : n ∈ registered (calls.foldl addForbiddenTraces (ofProgram p concurrent deadlock)) sigma) :
    n < (calls.foldl addForbiddenTraces (ofProgram p concurrent deadlock)).conflicts.length := by
  obtain ⟨⟨entries, hi⟩, -, -⟩ := installed_addForbiddenTraces p concurrent deadlock calls
  rw [registered, hi.conflictMap, List.mem_map] at hn
  obtain ⟨e, he, rfl⟩ := hn
  obtain ⟨i, hlt, rfl⟩ := List.mem_mapIdx.1 (List.mem_of_mem_filter he)
  rw [hi.conflicts, List.length_map]
  exact hlt

theorem HandleOf.lt {n : ℕ} {c : ConflictT} (h : HandleOf a n c) : n < 65536 := by
  rw [← h.payload]
  exact (c.data &&& ~~~conflictMask).isLt

/-- a step that has not thrown has registered the conflicts of its symbol, and no number of them was noticed -/
theorem registers_of_ok {m m' : Monitor} (hev : isEvent sigma = true)
    (h : a.applyBadTraceDnf m sigma = .ok (some m')) :
    ∃ cs, (registered a sigma).foldlM register cs = some m'.conflicts := by
  rw [applyBadTraceDnf, if_neg (not_skipped hev)] at h
  dsimp only at h
  split at h
  · simp at h
  · split at h
    · simp at h
    · rename_i cs hcs
      rw [← Option.some.inj (Except.ok.inj h)]
      exact ⟨_, hcs⟩

theorem not_noticed {m m' : Monitor} (hev : isEvent sigma = true) (h : a.applyBadTraceDnf m sigma = .ok (some m'))
    {n : ℕ} (hn : n ∈ registered a sigma) : ¬Noticed n := by
  intro hnoticed
  obtain ⟨cs, hcs⟩ := registers_of_ok hev h
  rw [foldlM_register_none hn (ConflictT.ofIndex_eq_none.2 hnoticed)] at hcs
  simp at hcs

/-- numbers that are not noticed are registered without an error -/
theorem foldlM_register_some {idx : List ℕ} (hidx : ∀ n ∈ idx, ¬Noticed n) (cs : List ConflictT) :
    ∃ cs', idx.foldlM register cs = some cs' := by
  induction idx generalizing cs with
  | nil => exact ⟨cs, rfl⟩
  | cons n idx ih =>
    have hn : ConflictT.ofIndex n ≠ none := by
      rw [Ne, ConflictT.ofIndex_eq_none]
      exact hidx n List.mem_cons_self
    obtain ⟨c, hc⟩ := Option.ne_none_iff_exists'.1 hn
    obtain ⟨cs', hcs'⟩ := ih (fun k hk => hidx k (List.mem_cons_of_mem _ hk)) (c.insertIn cs)
    refine ⟨cs', ?_⟩
    rw [List.foldlM_cons, register, hc]
    exact hcs'

/-- in a state without conflicts the symbol registers its own -/
theorem applyBadTraceDnf_fresh (hev : isEvent sigma = true) (hidx : ∀ n ∈ registered a sigma, ¬Noticed n)
    (violated : List Bool) : ∃ m', a.applyBadTraceDnf ⟨violated, []⟩ sigma = .ok (some m') := by
  obtain ⟨cs, hcs⟩ := foldlM_register_some hidx []
  exact ⟨_, applyBadTraceDnf_registers hev rfl hcs⟩

/-- **Handles.** -/
theorem neverAliased_iff (p : Program) (concurrent deadlock : Bool) (calls : List LockSymbols) :
    NeverAliased (calls.foldl addForbiddenTraces (ofProgram p concurrent deadlock)) ↔
      Separate (calls.foldl addForbiddenTraces (ofProgram p concurrent deadlock)) := by
  set a := calls.foldl addForbiddenTraces (ofProgram p concurrent deadlock)
  constructor
  · intro h sigma hev
    by_contra hnot
    rw [not_or, not_exists] at hnot
    obtain ⟨hhigh, hnone⟩ := hnot
    obtain ⟨m', hm'⟩ := applyBadTraceDnf_fresh hev (fun n hn hnoticed => hnone n ⟨hn, hnoticed⟩) []
    apply hhigh
    intro n hn
    obtain ⟨c, -, hc⟩ := h _ m' sigma hev hm' n hn
    exact hc.lt
  · intro h m m' sigma hev hok n hn
    have hlow : ∀ n ∈ registered a sigma, n ≤ maxPayload := by
      rcases h sigma hev with hlt | ⟨k, hk, hnoticed⟩
      · intro n hn
        have := not_noticed hev hok hn
        rw [Noticed, Nat.mod_eq_of_lt (hlt n hn)] at this
        exact not_lt.1 this
      · exact absurd hnoticed (not_noticed hev hok hk)
    obtain ⟨cs, hcs⟩ := registers_of_ok hev hok
    obtain ⟨cs', hcs', hmem⟩ := foldlM_register hlow cs
    obtain rfl := Option.some.inj (hcs.symm.trans hcs')
    obtain ⟨c, hp, ht⟩ := ConflictT.exists_handle (hlow n hn) false
    have hinfo : a.conflicts[n]? = some (a.info c) := by
      have hlt := registered_lt p concurrent deadlock calls hn
      rw [ConcurrentAutomaton.info, hp, List.getD_eq_getElem _ _ hlt]
      exact List.getElem?_eq_getElem hlt
    refine ⟨c, (hmem c).2 (.inr ⟨hp ▸ hn, ht⟩), hp, ht, hinfo, ?_, ConflictT.test_set c, ?_⟩
    · rw [ConflictT.payload_set, hp]
    · rw [ConcurrentAutomaton.info, ConcurrentAutomaton.info, ConflictT.payload_set]

/-! ## Few conflicts and many -/

/-- up to 65536 conflicts every handle is right -/
theorem neverAliased_of_le (p : Program) (concurrent deadlock : Bool) (calls : List LockSymbols)
    (h : (calls.foldl addForbiddenTraces (ofProgram p concurrent deadlock)).conflicts.length ≤ 65536) :
    NeverAliased (calls.foldl addForbiddenTraces (ofProgram p concurrent deadlock)) := by
  apply (neverAliased_iff p concurrent deadlock calls).2
  intro sigma _
  exact .inl fun n hn => Nat.lt_of_lt_of_le (registered_lt p concurrent deadlock calls hn) h

/-- 65536 conflicts of one symbol, and one of another -/
theorem registered_new {n : ℕ} (hn : n = 65536) :
    registered (restricted eitherProgram false [List.replicate n otherBranch, [[[[writeOther], [writeX1, writeX2]]]]])
      writeX1 = [65536] := by
  rw [registered, restricted_new, registered_append n [newEntry] (by decide), hn]
  rfl

/-- the handle of conflict 65536 is that of conflict 0 -/
theorem newEntry_aliased : ¬∀ (p : Program) (concurrent deadlock : Bool) (calls : List LockSymbols),
    NeverAliased (calls.foldl addForbiddenTraces (ofProgram p concurrent deadlock)) := by
  intro h
  obtain ⟨n, hn⟩ : ∃ n, n = 65536 := ⟨_, rfl⟩
  have hreg := registered_new hn
  have hmem : 65536 ∈ registered (restricted eitherProgram false
      [List.replicate n otherBranch, [[[[writeOther], [writeX1, writeX2]]]]]) writeX1 := by
    rw [hreg]
    exact List.mem_singleton_self _
  have hnone : ∀ k ∈ registered (restricted eitherProgram false
      [List.replicate n otherBranch, [[[[writeOther], [writeX1, writeX2]]]]]) writeX1, ¬Noticed k := by
    rw [hreg]
    intro k hk
    rw [List.mem_singleton.1 hk, Noticed]
    decide
  obtain ⟨m', hm'⟩ := applyBadTraceDnf_fresh (by decide) hnone []
  obtain ⟨c, -, hc⟩ := h eitherProgram true false _ _ m' writeX1 (by decide) hm' 65536 hmem
  exact lt_irrefl _ hc.lt

end Liss.Synthesis
