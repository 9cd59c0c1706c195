/-
The conflict monitor is exact: `apply_bad_trace_dnf` rejects a word as soon as it violates a clause, and only then.

The invariant ties the monitor to the history of events. A conflict is in the set iff its past symbol is the last step
of its thread, and it is tagged iff a conflicting symbol has occurred since (`Pending`); a lock is marked iff one of
its conflicts has come to its end (`Fired`).

- `tracks_step`: one event keeps the invariant, or is rejected because it completes a violation;
- `monitorRun_iff`: the monitor accepts a word iff the word violates none of the installed clauses.
-/
import Liss.Abstraction.Forbidden

namespace Liss

/-- lock number `l` is marked as violated -/
def Monitor.violated (m : Monitor) (l : ℕ) : Prop := m.locksviolated.getD l false = true

namespace ConcurrentAutomaton

/-- the monitor along a word -/
def monitorRun (a : ConcurrentAutomaton) (m : Monitor) : List Symbol → Except Exn (Option Monitor)
  | [] => .ok (some m)
  | sigma :: w =>
    match a.applyBadTraceDnf m sigma with
    | .ok (some m') => a.monitorRun m' w
    | res => res

/-- the monitor of the initial state -/
def startMonitor (a : ConcurrentAutomaton) : Monitor := ⟨List.replicate a.locksSize false, []⟩

/-! ## The history -/

/-- the past symbol of the conflict is the last step of its thread; `tag`: a conflicting symbol has occurred since -/
def Pending (e : Symbol × ConflictInfo) (ev : List Symbol) (tag : Bool) : Prop :=
  ∃ x b, since Symbol.threadId e.2.nextThread ev = some (x, b) ∧ e.1.equals x = true ∧
    (tag = true ↔ ∃ s ∈ b, s.isIn e.2.conflict = true)

/-- the event `sigma` after the history completes the conflict -/
def Fires (e : Symbol × ConflictInfo) (ev : List Symbol) (sigma : Symbol) : Prop :=
  sigma.equals e.2.next = true ∧ Pending e ev true

def Fired (e : Symbol × ConflictInfo) (ev : List Symbol) : Prop :=
  ∃ pre sigma post, ev = pre ++ sigma :: post ∧ Fires e pre sigma

theorem fired_snoc {e : Symbol × ConflictInfo} {ev : List Symbol} {sigma : Symbol} :
    Fired e (ev ++ [sigma]) ↔ Fired e ev ∨ Fires e ev sigma := by
  constructor
  · rintro ⟨pre, x, post, heq, hf⟩
    rcases snoc_eq_append_cons.1 heq with ⟨rfl, rfl, -⟩ | ⟨post', -, hev⟩
    · exact Or.inr hf
    · exact Or.inl ⟨pre, x, post', hev, hf⟩
  · rintro (⟨pre, x, post, rfl, hf⟩ | hf)
    · exact ⟨pre, x, post ++ [sigma], by simp, hf⟩
    · exact ⟨ev, sigma, [], rfl, hf⟩

theorem pending_snoc_own {e : Symbol × ConflictInfo} {ev : List Symbol} {sigma : Symbol} {tag : Bool}
    (h : sigma.threadId = e.2.nextThread) :
    Pending e (ev ++ [sigma]) tag ↔ e.1.equals sigma = true ∧ tag = false := by
  unfold Pending
  rw [since_snoc_own h]
  constructor
  · rintro ⟨x, b, heq, hx, ht⟩
    simp only [Option.some.injEq, Prod.mk.injEq] at heq
    obtain ⟨rfl, rfl⟩ := heq
    exact ⟨hx, by simpa using ht⟩
  · rintro ⟨hx, rfl⟩
    exact ⟨sigma, [], rfl, hx, by simp⟩

theorem pending_snoc_other {e : Symbol × ConflictInfo} {ev : List Symbol} {sigma : Symbol} {tag : Bool}
    (h : sigma.threadId ≠ e.2.nextThread) :
    Pending e (ev ++ [sigma]) tag ↔
      ∃ tag', Pending e ev tag' ∧ (tag = true ↔ tag' = true ∨ sigma.isIn e.2.conflict = true) := by
  unfold Pending
  simp only [since_snoc_other h]
  constructor
  · rintro ⟨x, b, ⟨b', hs, rfl⟩, hx, ht⟩
    refine ⟨decide (∃ s ∈ b', s.isIn e.2.conflict = true), ⟨x, b', hs, hx, by simp⟩, ?_⟩
    rw [ht]
    simp [or_and_right, exists_or]
  · rintro ⟨tag', ⟨x, b', hs, hx, ht'⟩, ht⟩
    refine ⟨x, b' ++ [sigma], ⟨b', hs, rfl⟩, hx, ?_⟩
    rw [ht, ht']
    simp [or_and_right, exists_or]

/-! ## `tick_lock` -/

/-- all locks of some pattern satisfy `P` -/
def Covered (a : ConcurrentAutomaton) (P : ℕ → Prop) : Prop := ∃ bad ∈ a.locks, ∀ l, bad.getD l false = true → P l

theorem Covered.mono {a : ConcurrentAutomaton} {P Q : ℕ → Prop} (h : a.Covered P) (hPQ : ∀ l, P l → Q l) :
    a.Covered Q := by
  obtain ⟨bad, hbad, hall⟩ := h
  exact ⟨bad, hbad, fun l hl => hPQ l (hall l hl)⟩

/-- `(bits & bad) == bad` -/
theorem contains_iff {bits bad : List Bool} (h : bits.length = bad.length) :
    (bits.zipWith (· && ·) bad) = bad ↔ ∀ l, bad.getD l false = true → bits.getD l false = true := by
  induction bits generalizing bad with
  | nil =>
    rw [List.eq_nil_of_length_eq_zero h.symm]
    simp
  | cons x bits ih =>
    match bad, h with
    | y :: bad, h =>
      have hlen : bits.length = bad.length := by simpa using h
      simp only [List.zipWith_cons_cons, List.cons.injEq, ih hlen]
      constructor
      · rintro ⟨hx, hrest⟩ l hl
        cases l with
        | zero =>
          simp only [List.getD_cons_zero] at hl ⊢
          rw [hl] at hx
          simpa using hx
        | succ l => exact hrest l hl
      · intro hall
        refine ⟨?_, fun l hl => hall (l + 1) hl⟩
        have h0 := hall 0
        simp only [List.getD_cons_zero] at h0
        cases y
        · simp
        · simp [h0 rfl]

theorem getD_set {bits : List Bool} {l : ℕ} (hl : l < bits.length) (k : ℕ) :
    (bits.set l true).getD k false = true ↔ bits.getD k false = true ∨ k = l := by
  simp only [List.getD_eq_getElem?_getD, List.getElem?_set]
  by_cases hk : l = k
  · subst hk
    simp [hl]
  · simp [hk, Ne.symm hk]

variable {a : ConcurrentAutomaton} {clauses : List (Disj LockLists)} {entries : List (Symbol × ConflictInfo)}
  {w : List Symbol}

theorem any_locks_iff (hpad : a.Padded) {bits : List Bool} (h : bits.length = a.locksSize) :
    (a.locks.any fun bad => (bits.zipWith (· && ·) bad) == bad) = true ↔
      a.Covered fun l => bits.getD l false = true := by
  simp only [List.any_eq_true, beq_iff_eq, Covered]
  refine exists_congr fun bad => and_congr_right fun hbad => contains_iff ?_
  rw [h, hpad bad hbad]

/-- a lock number of the table is marked; the monitor goes on iff no pattern is complete then -/
theorem tickLock_some (hpad : a.Padded) {m : Monitor} {l : ℕ} (hlen : m.locksviolated.length = a.locksSize)
    (hl : l < a.locksSize) (hsafe : ¬a.Covered m.violated) :
    (a.Covered (fun k => m.violated k ∨ k = l) ∧ a.tickLock m (some l) = none) ∨
      (¬a.Covered (fun k => m.violated k ∨ k = l) ∧ ∃ bits, bits.length = a.locksSize ∧
        (∀ k, bits.getD k false = true ↔ m.violated k ∨ k = l) ∧
        a.tickLock m (some l) = some { m with locksviolated := bits }) := by
  by_cases hold : m.locksviolated.getD l false = true
  · right
    have hsame : ∀ k, (m.violated k ∨ k = l) ↔ m.violated k := by
      intro k
      constructor
      · rintro (h | rfl)
        · exact h
        · exact hold
      · exact Or.inl
    refine ⟨fun hc => hsafe (hc.mono fun k => (hsame k).1), m.locksviolated, hlen, fun k => (hsame k).symm, ?_⟩
    rw [tickLock, if_pos hold]
  · have hset := getD_set (show l < m.locksviolated.length by omega)
    have hlen' : (m.locksviolated.set l true).length = a.locksSize := by simpa using hlen
    have hany := any_locks_iff hpad hlen'
    have hcov : (a.Covered fun k => (m.locksviolated.set l true).getD k false = true) ↔
        a.Covered fun k => m.violated k ∨ k = l :=
      ⟨fun h => h.mono fun k => (hset k).1, fun h => h.mono fun k => (hset k).2⟩
    by_cases hc : a.Covered fun k => m.violated k ∨ k = l
    · left
      refine ⟨hc, ?_⟩
      simp only [tickLock, if_neg hold]
      rw [if_pos (hany.2 (hcov.2 hc))]
    · right
      refine ⟨hc, m.locksviolated.set l true, by simpa using hlen, hset, ?_⟩
      have hno : ¬(a.locks.any fun bad => ((m.locksviolated.set l true).zipWith (· && ·) bad) == bad) = true :=
        fun h => hc (hcov.1 (hany.1 h))
      simp only [tickLock, if_neg hold]
      rw [if_neg hno]

/-! ## The loop over the conflicts -/

theorem mem_insertIn {c d : ConflictT} {l : List ConflictT} : d ∈ c.insertIn l ↔ d = c ∨ d ∈ l := by
  induction l with
  | nil => simp [ConflictT.insertIn]
  | cons e l ih =>
    rw [ConflictT.insertIn]
    split_ifs with h1 h2
    · simp
    · subst h2
      simp
    · simp only [List.mem_cons, ih]
      tauto

theorem mem_eraseFrom {c d : ConflictT} {l : List ConflictT} : d ∈ c.eraseFrom l ↔ d ∈ l ∧ d ≠ c := by
  simp [ConflictT.eraseFrom]

/-- what the loop does with one conflict that has not been seen -/
theorem mem_visitClean (sigma : Symbol) {d : ConflictT} (hd : d.test = false) (cs : List ConflictT) (c : ConflictT) :
    c ∈ a.visitClean sigma cs d ↔
      (c ∈ cs ∧ ¬(c = d ∧ ((a.info c).nextThread = sigma.threadId ∨ sigma.isIn (a.info c).conflict = true))) ∨
        (d.set = c ∧ (a.info d).nextThread ≠ sigma.threadId ∧ sigma.isIn (a.info d).conflict = true) := by
  unfold visitClean
  split_ifs with h1 h2
  · rw [mem_eraseFrom]
    constructor
    · rintro ⟨hc, hne⟩
      exact Or.inl ⟨hc, fun h => hne h.1⟩
    · rintro (⟨hc, hne⟩ | ⟨-, hne, -⟩)
      · exact ⟨hc, fun h => hne ⟨h, Or.inl (h ▸ h1)⟩⟩
      · exact absurd h1 hne
  · rw [mem_eraseFrom, mem_insertIn]
    constructor
    · rintro ⟨rfl | hc, hne⟩
      · exact Or.inr ⟨rfl, h1, h2⟩
      · exact Or.inl ⟨hc, fun h => hne h.1⟩
    · rintro (⟨hc, hne⟩ | ⟨rfl, -, -⟩)
      · exact ⟨Or.inr hc, fun h => hne ⟨h, Or.inr (h ▸ h2)⟩⟩
      · exact ⟨Or.inl rfl, ConflictT.set_ne hd⟩
  · constructor
    · intro hc
      refine Or.inl ⟨hc, ?_⟩
      rintro ⟨rfl, h | h⟩
      · exact h1 h
      · exact h2 h
    · rintro (⟨hc, -⟩ | ⟨-, -, h⟩)
      · exact hc
      · exact absurd h h2

/-- what the loop does with the conflicts that have not been seen -/
theorem mem_foldl_visitClean (sigma : Symbol) {l : List ConflictT} (hl : ∀ d ∈ l, d.test = false)
    (cs : List ConflictT) (c : ConflictT) :
    c ∈ l.foldl (a.visitClean sigma) cs ↔
      (c ∈ cs ∧ ¬(c ∈ l ∧ ((a.info c).nextThread = sigma.threadId ∨ sigma.isIn (a.info c).conflict = true))) ∨
        ∃ d ∈ l, d.set = c ∧ (a.info d).nextThread ≠ sigma.threadId ∧ sigma.isIn (a.info d).conflict = true := by
  induction l generalizing cs with
  | nil => simp
  | cons d l ih =>
    have hl' : ∀ e ∈ l, e.test = false := fun e he => hl e (List.mem_cons_of_mem _ he)
    rw [List.foldl_cons, ih hl', mem_visitClean sigma (hl d List.mem_cons_self)]
    constructor
    · rintro (⟨⟨hc, hn⟩ | ⟨rfl, hr⟩, hn'⟩ | ⟨e, he, hr⟩)
      · refine Or.inl ⟨hc, ?_⟩
        rintro ⟨hm, hr⟩
        rcases List.mem_cons.1 hm with rfl | hm
        · exact hn ⟨rfl, hr⟩
        · exact hn' ⟨hm, hr⟩
      · exact Or.inr ⟨d, List.mem_cons_self, rfl, hr⟩
      · exact Or.inr ⟨e, List.mem_cons_of_mem _ he, hr⟩
    · rintro (⟨hc, hn⟩ | ⟨e, he, rfl, hr⟩)
      · refine Or.inl ⟨Or.inl ⟨hc, ?_⟩, fun h => hn ⟨List.mem_cons_of_mem _ h.1, h.2⟩⟩
        rintro ⟨rfl, hr⟩
        exact hn ⟨List.mem_cons_self, hr⟩
      · rcases List.mem_cons.1 he with rfl | he
        · -- the tagged conflict is not visited again
          exact Or.inl ⟨Or.inr ⟨rfl, hr⟩, fun h => ConflictT.set_ne (hl' _ h.1) rfl⟩
        · exact Or.inr ⟨e, he, rfl, hr⟩

/-- the event completes this conflict -/
def Hit (a : ConcurrentAutomaton) (sigma : Symbol) (c : ConflictT) : Prop :=
  (a.info c).nextThread = sigma.threadId ∧ sigma.equals (a.info c).next = true

/-- the locks of the conflicts in `l` that the event completes -/
def HitLock (a : ConcurrentAutomaton) (sigma : Symbol) (l : List ConflictT) (k : ℕ) : Prop :=
  ∃ c ∈ l, a.Hit sigma c ∧ (a.info c).lockId = some k

/-- a violation is complete: of a clause with one lock, or of all the locks of a clause -/
def Complete (a : ConcurrentAutomaton) (sigma : Symbol) (m : Monitor) (l : List ConflictT) : Prop :=
  (∃ c ∈ l, a.Hit sigma c ∧ (a.info c).lockId = none) ∨ a.Covered fun k => m.violated k ∨ a.HitLock sigma l k

theorem hitLock_cons {sigma : Symbol} {d : ConflictT} {l : List ConflictT} {k : ℕ} :
    a.HitLock sigma (d :: l) k ↔ a.HitLock sigma [d] k ∨ a.HitLock sigma l k := by
  simp [HitLock, or_and_right, exists_or]

theorem hitLock_singleton {sigma : Symbol} {d : ConflictT} {k : ℕ} :
    a.HitLock sigma [d] k ↔ a.Hit sigma d ∧ (a.info d).lockId = some k := by simp [HitLock]

theorem Complete.cons {sigma : Symbol} {d : ConflictT} {m : Monitor} (h : a.Complete sigma m [d]) (l : List ConflictT) :
    a.Complete sigma m (d :: l) := by
  rcases h with ⟨c, hc, h⟩ | hcov
  · exact Or.inl ⟨c, List.mem_cons.2 (Or.inl (List.mem_singleton.1 hc)), h⟩
  · exact Or.inr (hcov.mono fun k hk => hk.imp_right fun hh => hitLock_cons.2 (Or.inl hh))

/-- a violation is completed by the first conflict or, the first one taken into account, by the others -/
theorem complete_cons {sigma : Symbol} {d : ConflictT} {l : List ConflictT} {m m' : Monitor}
    (hm : ∀ k, m'.violated k ↔ m.violated k ∨ a.HitLock sigma [d] k) :
    a.Complete sigma m (d :: l) ↔ a.Complete sigma m [d] ∨ a.Complete sigma m' l := by
  unfold Complete
  constructor
  · rintro (⟨c, hc, h⟩ | hcov)
    · rcases List.mem_cons.1 hc with rfl | hc
      · exact Or.inl (Or.inl ⟨c, by simp, h⟩)
      · exact Or.inr (Or.inl ⟨c, hc, h⟩)
    · refine Or.inr (Or.inr (hcov.mono fun k hk => ?_))
      rw [hm, or_assoc, ← hitLock_cons]
      exact hk
  · rintro (h | ⟨c, hc, h⟩ | hcov)
    · exact Complete.cons h l
    · exact Or.inl ⟨c, List.mem_cons_of_mem _ hc, h⟩
    · refine Or.inr (hcov.mono fun k hk => ?_)
      rw [hm, or_assoc, ← hitLock_cons] at hk
      exact hk

theorem not_complete_of_not_hit {sigma : Symbol} {d : ConflictT} {m : Monitor} (hsafe : ¬a.Covered m.violated)
    (hd : ¬a.Hit sigma d) : ¬a.Complete sigma m [d] := by
  rintro (⟨c, hc, hh, -⟩ | hcov)
  · exact hd (List.mem_singleton.1 hc ▸ hh)
  · exact hsafe (hcov.mono fun k hk => hk.resolve_right fun h => hd (hitLock_singleton.1 h).1)

theorem complete_singleton {sigma : Symbol} {d : ConflictT} {m : Monitor} {k : ℕ} (hd : a.Hit sigma d)
    (hk : (a.info d).lockId = some k) :
    a.Complete sigma m [d] ↔ a.Covered fun j => m.violated j ∨ j = k := by
  have hlock : ∀ j, a.HitLock sigma [d] j ↔ j = k := by
    intro j
    rw [hitLock_singleton, hk, Option.some.injEq]
    exact ⟨fun h => h.2.symm, fun h => ⟨hd, h.symm⟩⟩
  unfold Complete
  simp only [hlock, List.mem_singleton, exists_eq_left, hk, reduceCtorEq, and_false, false_or]

/-- what the loop does with one conflict that has been seen -/
theorem visitTagged_spec (hpad : a.Padded) (sigma : Symbol) {d : ConflictT}
    (hids : ∀ k, (a.info d).lockId = some k → k < a.locksSize) {m : Monitor}
    (hlen : m.locksviolated.length = a.locksSize) (hsafe : ¬a.Covered m.violated) :
    (a.Complete sigma m [d] ∧ a.visitTagged sigma m d = none) ∨
      (¬a.Complete sigma m [d] ∧ ∃ m', a.visitTagged sigma m d = some m' ∧
        m'.locksviolated.length = a.locksSize ∧ (∀ k, m'.violated k ↔ m.violated k ∨ a.HitLock sigma [d] k) ∧
        ∀ c, c ∈ m'.conflicts ↔ c ∈ m.conflicts ∧ ¬(c = d ∧ (a.info c).nextThread = sigma.threadId)) := by
  by_cases ht : (a.info d).nextThread = sigma.threadId
  swap
  · right
    have hd : ¬a.Hit sigma d := fun h => ht h.1
    refine ⟨not_complete_of_not_hit hsafe hd, m, by rw [visitTagged, if_neg ht], hlen, ?_, ?_⟩
    · simp [hitLock_singleton, hd]
    · intro c
      refine ⟨fun hc => ⟨hc, ?_⟩, fun h => h.1⟩
      rintro ⟨rfl, h⟩
      exact ht h
  have herase : ∀ c, c ∈ d.eraseFrom m.conflicts ↔
      c ∈ m.conflicts ∧ ¬(c = d ∧ (a.info c).nextThread = sigma.threadId) := by
    intro c
    rw [mem_eraseFrom]
    refine and_congr_right fun _ => not_congr ⟨fun h => ⟨h, h ▸ ht⟩, And.left⟩
  by_cases hn : sigma.equals (a.info d).next = true
  swap
  · right
    have hd : ¬a.Hit sigma d := fun h => hn h.2
    refine ⟨not_complete_of_not_hit hsafe hd, { m with conflicts := d.eraseFrom m.conflicts }, ?_, hlen, ?_, herase⟩
    · rw [visitTagged, if_pos ht, if_neg hn]
      rfl
    · intro k
      rw [hitLock_singleton, or_iff_left fun h => hd h.1]
      rfl
  have hd : a.Hit sigma d := ⟨ht, hn⟩
  have hvisit : a.visitTagged sigma m d =
      (a.tickLock m (a.info d).lockId).map fun m => { m with conflicts := d.eraseFrom m.conflicts } := by
    rw [visitTagged, if_pos ht, if_pos hn]
  rw [hvisit]
  cases hid : (a.info d).lockId with
  | none => exact Or.inl ⟨Or.inl ⟨d, by simp, hd, hid⟩, rfl⟩
  | some k =>
    rw [complete_singleton hd hid]
    rcases tickLock_some hpad hlen (hids k hid) hsafe with ⟨hc, ht⟩ | ⟨hc, bits, hlen', hbits, ht⟩
    · exact Or.inl ⟨hc, by rw [ht]; rfl⟩
    · right
      refine ⟨hc, _, by rw [ht]; rfl, hlen', fun j => ?_, herase⟩
      rw [hitLock_singleton, hid, Option.some.injEq]
      refine (hbits j).trans (or_congr_right ⟨fun h => ⟨hd, h.symm⟩, fun h => h.2.symm⟩)

/-- what the loop does with the conflicts that have been seen -/
theorem foldlM_visitTagged (hpad : a.Padded) (sigma : Symbol) {l : List ConflictT}
    (hids : ∀ c ∈ l, ∀ k, (a.info c).lockId = some k → k < a.locksSize) {m : Monitor}
    (hlen : m.locksviolated.length = a.locksSize) (hsafe : ¬a.Covered m.violated) :
    (a.Complete sigma m l ∧ l.foldlM (a.visitTagged sigma) m = none) ∨
      (¬a.Complete sigma m l ∧ ∃ m', l.foldlM (a.visitTagged sigma) m = some m' ∧
        m'.locksviolated.length = a.locksSize ∧ (∀ k, m'.violated k ↔ m.violated k ∨ a.HitLock sigma l k) ∧
        ∀ c, c ∈ m'.conflicts ↔ c ∈ m.conflicts ∧ ¬(c ∈ l ∧ (a.info c).nextThread = sigma.threadId)) := by
  induction l generalizing m with
  | nil =>
    right
    refine ⟨?_, m, rfl, hlen, by simp [HitLock], by simp⟩
    rintro (⟨c, hc, -⟩ | hcov)
    · simp at hc
    · exact hsafe (hcov.mono fun k hk => hk.resolve_right (by simp [HitLock]))
  | cons d l ih =>
    have hids' : ∀ c ∈ l, ∀ k, (a.info c).lockId = some k → k < a.locksSize :=
      fun c hc => hids c (List.mem_cons_of_mem _ hc)
    rw [List.foldlM_cons]
    rcases visitTagged_spec hpad sigma (hids d List.mem_cons_self) hlen hsafe with
      ⟨hc, hv⟩ | ⟨hc, m1, hv, hlen1, hviol1, hconf1⟩
    · left
      rw [hv]
      exact ⟨hc.cons l, rfl⟩
    · have hsafe1 : ¬a.Covered m1.violated := fun h => hc (Or.inr (h.mono fun k => (hviol1 k).1))
      rw [hv, complete_cons hviol1]
      rcases ih hids' hlen1 hsafe1 with ⟨hc2, hf⟩ | ⟨hc2, m2, hf, hlen2, hviol2, hconf2⟩
      · exact Or.inl ⟨Or.inr hc2, hf⟩
      · refine Or.inr ⟨not_or.2 ⟨hc, hc2⟩, m2, hf, hlen2, fun k => ?_, fun c => ?_⟩
        · rw [hviol2, hviol1, hitLock_cons (l := l), or_assoc]
        · rw [hconf2, hconf1, List.mem_cons]
          tauto

/-! ## The registration of new conflicts -/

theorem foldlM_register {idx : List ℕ} (hidx : ∀ n ∈ idx, n ≤ maxPayload) (cs : List ConflictT) :
    ∃ cs', idx.foldlM register cs = some cs' ∧
      ∀ c, c ∈ cs' ↔ c ∈ cs ∨ (c.payload ∈ idx ∧ c.test = false) := by
  induction idx generalizing cs with
  | nil => exact ⟨cs, rfl, by simp⟩
  | cons n idx ih =>
    have hn : n ≤ maxPayload := hidx n List.mem_cons_self
    obtain ⟨d, hdp, hdt⟩ := ConflictT.exists_handle hn false
    have hd : ConflictT.ofIndex n = some d := (ConflictT.ofIndex_iff hn).2 ⟨hdp, hdt⟩
    obtain ⟨cs', hf, hmem⟩ := ih (fun k hk => hidx k (List.mem_cons_of_mem _ hk)) (d.insertIn cs)
    refine ⟨cs', ?_, fun c => ?_⟩
    · rw [List.foldlM_cons]
      simp only [register, hd, Option.map_some, Option.bind_eq_bind, Option.bind_some]
      exact hf
    · rw [hmem, mem_insertIn, List.mem_cons]
      constructor
      · rintro ((rfl | h) | h)
        · exact Or.inr ⟨Or.inl hdp, hdt⟩
        · exact Or.inl h
        · exact Or.inr ⟨Or.inr h.1, h.2⟩
      · rintro (h | ⟨hp | hp, ht⟩)
        · exact Or.inl (Or.inr h)
        · exact Or.inl (Or.inl (ConflictT.ext_payload (hp.trans hdp.symm) (ht.trans hdt.symm)))
        · exact Or.inr ⟨hp, ht⟩

/-- a conflict without a number stops the registration -/
theorem foldlM_register_none {idx : List ℕ} {i : ℕ} (hi : i ∈ idx) (hnone : ConflictT.ofIndex i = none)
    (cs : List ConflictT) : idx.foldlM register cs = none := by
  induction idx generalizing cs with
  | nil => simp at hi
  | cons n idx ih =>
    rw [List.foldlM_cons]
    rcases List.mem_cons.1 hi with rfl | hi
    · simp [register, hnone]
    · cases hn : register cs n with
      | none => rfl
      | some cs' => exact ih hi cs'

/-! ## The invariant -/

/-- some conflict of lock number `l` has come to its end -/
def Broken (entries : List (Symbol × ConflictInfo)) (ev : List Symbol) (l : ℕ) : Prop :=
  ∃ e ∈ entries, e.2.lockId = some l ∧ Fired e ev

/-- the history violates a clause, as the tables see it -/
def Rejected (a : ConcurrentAutomaton) (entries : List (Symbol × ConflictInfo)) (ev : List Symbol) : Prop :=
  (∃ e ∈ entries, e.2.lockId = none ∧ Fired e ev) ∨ a.Covered (Broken entries ev)

/-- the monitor after the history `ev` -/
structure Tracks (a : ConcurrentAutomaton) (entries : List (Symbol × ConflictInfo)) (ev : List Symbol) (m : Monitor) :
    Prop where
  length : m.locksviolated.length = a.locksSize
  violated : ∀ l, m.violated l ↔ Broken entries ev l
  conflicts : ∀ c, c ∈ m.conflicts ↔ ∃ e, entries[c.payload]? = some e ∧ Pending e ev c.test

theorem Rejected.append {ev : List Symbol} (h : a.Rejected entries ev) (ev' : List Symbol) :
    a.Rejected entries (ev ++ ev') := by
  have hf : ∀ {e}, Fired e ev → Fired e (ev ++ ev') := by
    rintro e ⟨pre, x, post, rfl, hf⟩
    exact ⟨pre, x, post ++ ev', by simp, hf⟩
  rcases h with ⟨e, he, hn, hfe⟩ | hc
  · exact Or.inl ⟨e, he, hn, hf hfe⟩
  · exact Or.inr (hc.mono fun l ⟨e, he, hl, hfe⟩ => ⟨e, he, hl, hf hfe⟩)

/-- the conflicts with a past symbol in the word have numbers that a handle holds -/
def Handled (entries : List (Symbol × ConflictInfo)) (w : List Symbol) : Prop :=
  ∀ n e, entries[n]? = some e → (∃ s ∈ w, e.1.equals s = true) → n ≤ maxPayload

theorem handled_of_length (h : entries.length ≤ maxPayload + 1) (w : List Symbol) : Handled entries w := by
  intro n e hn _
  have := (List.getElem?_eq_some_iff.1 hn).1
  omega

/-- the tables fit together: the pattern lengths, the lock numbers, the 15 bits of a handle for the word `w`, and past
and next symbol of a conflict belong to one thread -/
structure Sound (a : ConcurrentAutomaton) (entries : List (Symbol × ConflictInfo)) (w : List Symbol) : Prop where
  conflicts : a.conflicts = entries.map Prod.snd
  conflictMap : a.conflictMap = entries.mapIdx fun i e => (e.1, i)
  padded : a.Padded
  lockId : ∀ e ∈ entries, ∀ l, e.2.lockId = some l → l < a.locksSize
  size : Handled entries w
  thread : ∀ e ∈ entries, e.1.threadId = e.2.nextThread
  clean : ¬a.Covered fun _ => False

theorem Sound.info (h : a.Sound entries w) {c : ConflictT} {e : Symbol × ConflictInfo}
    (hc : entries[c.payload]? = some e) : a.info c = e.2 := by
  rw [ConcurrentAutomaton.info, h.conflicts, List.getD_eq_getElem?_getD, List.getElem?_map, hc]
  rfl

theorem Pending.exists_past {e : Symbol × ConflictInfo} {ev : List Symbol} {tag : Bool} (h : Pending e ev tag) :
    ∃ s ∈ ev, e.1.equals s = true := by
  obtain ⟨x, b, hsince, heq, -⟩ := h
  obtain ⟨pre, rfl, -, -⟩ := since_eq_some.1 hsince
  exact ⟨x, by simp, heq⟩

/-- a conflict that is pending in a part of the word has a handle -/
theorem Sound.index_le (h : a.Sound entries w) {ev : List Symbol} (hev : ev ⊆ w) {n : ℕ} {e : Symbol × ConflictInfo}
    {tag : Bool} (hn : entries[n]? = some e) (hp : Pending e ev tag) : n ≤ maxPayload := by
  obtain ⟨s, hs, heq⟩ := hp.exists_past
  exact h.size n e hn ⟨s, hev hs, heq⟩

theorem tracks_start (a : ConcurrentAutomaton) (entries : List (Symbol × ConflictInfo)) :
    a.Tracks entries [] a.startMonitor := by
  refine ⟨by simp [startMonitor], fun l => ?_, fun c => ?_⟩
  · refine ⟨fun hv => ?_, ?_⟩
    · simp only [Monitor.violated, startMonitor, List.getD_eq_getElem?_getD, List.getElem?_replicate] at hv
      split_ifs at hv <;> simp at hv
    · rintro ⟨e, -, -, pre, x, post, heq, -⟩
      simp at heq
  · simp [startMonitor, Pending]

/-- the conflicts after the loop over those that have not been seen -/
def cleaned (a : ConcurrentAutomaton) (m : Monitor) (sigma : Symbol) : List ConflictT :=
  (m.conflicts.filter fun c => !c.test).foldl (a.visitClean sigma) m.conflicts

/-- a conflict of the thread of the event is in the list if it has been seen, one of another thread if it is pending
after the event -/
theorem tracks_clean (h : a.Sound entries w) {ev : List Symbol} (hev : ev ⊆ w) {m : Monitor}
    (ht : a.Tracks entries ev m) (sigma : Symbol) (c : ConflictT) :
    c ∈ a.cleaned m sigma ↔
      ∃ e, entries[c.payload]? = some e ∧
        if sigma.threadId = e.2.nextThread then c.test = true ∧ Pending e ev true
        else Pending e (ev ++ [sigma]) c.test := by
  have hclean : ∀ d ∈ m.conflicts.filter fun c => !c.test, d.test = false := by
    intro d hd
    simpa using (List.mem_filter.1 hd).2
  rw [cleaned, mem_foldl_visitClean sigma hclean]
  have hmem : ∀ d, (d ∈ m.conflicts.filter fun c => !c.test) ↔ d ∈ m.conflicts ∧ d.test = false := by
    intro d
    simp [List.mem_filter]
  simp only [hmem, ht.conflicts]
  constructor
  · rintro (⟨⟨e, he, hp⟩, hn⟩ | ⟨d, ⟨⟨e, he, hp⟩, hd⟩, rfl, hthread, hin⟩)
    · refine ⟨e, he, ?_⟩
      rw [h.info he] at hn
      cases htag : c.test with
      | true =>
        rw [htag] at hp
        split_ifs with hsame
        · exact ⟨rfl, hp⟩
        · exact (pending_snoc_other hsame).2 ⟨true, hp, by simp⟩
      | false =>
        rw [htag] at hp
        have hno : ¬(e.2.nextThread = sigma.threadId ∨ sigma.isIn e.2.conflict = true) :=
          fun hc => hn ⟨⟨⟨e, he, htag ▸ hp⟩, htag⟩, hc⟩
        rw [if_neg fun hs => hno (Or.inl hs.symm)]
        exact (pending_snoc_other fun hs => hno (Or.inl hs.symm)).2 ⟨false, hp, by simp [not_or.1 hno]⟩
    · refine ⟨e, by rwa [ConflictT.payload_set], ?_⟩
      rw [h.info he] at hthread hin
      rw [if_neg (Ne.symm hthread), ConflictT.test_set]
      exact (pending_snoc_other (Ne.symm hthread)).2 ⟨_, hp, by simp [hin]⟩
  · rintro ⟨e, he, hp⟩
    split_ifs at hp with hsame
    · refine Or.inl ⟨⟨e, he, hp.1 ▸ hp.2⟩, ?_⟩
      rintro ⟨⟨-, hf⟩, -⟩
      simp [hp.1] at hf
    · obtain ⟨tag, hpt, htag⟩ := (pending_snoc_other hsame).1 hp
      by_cases hcase : c.test = tag
      · refine Or.inl ⟨⟨e, he, hcase ▸ hpt⟩, ?_⟩
        rintro ⟨⟨-, hf⟩, hr | hr⟩
        · exact hsame (h.info he ▸ hr.symm)
        · rw [h.info he] at hr
          simp [hf, hr] at htag
      · -- the conflict has just been seen: it stood untagged in the set
        have htrue : c.test = true ∧ tag = false ∧ sigma.isIn e.2.conflict = true := by
          cases hc : c.test <;> cases hg : tag <;> simp_all
        obtain ⟨d, hpay, hdt⟩ := ConflictT.exists_handle (h.index_le hev he hpt) false
        refine Or.inr ⟨d, ⟨⟨e, by rwa [hpay], ?_⟩, hdt⟩, ?_, ?_, ?_⟩
        · rw [hdt, ← htrue.2.1]
          exact hpt
        · exact ConflictT.ext_payload (by simp [hpay]) (by simp [htrue.1])
        · rw [h.info (by rwa [hpay])]
          exact fun hs => hsame hs.symm
        · rw [h.info (by rwa [hpay])]
          exact htrue.2.2

theorem fires_threadId {e : Symbol × ConflictInfo} {ev : List Symbol} {sigma : Symbol} (h : Fires e ev sigma) :
    e.2.nextThread = sigma.threadId := (Symbol.threadId_eq_of_equals h.1).symm

/-- the conflicts that the event completes -/
theorem hit_iff (h : a.Sound entries w) {ev : List Symbol} (hev : ev ⊆ w) {m : Monitor} (ht : a.Tracks entries ev m)
    (sigma : Symbol) (id : Option ℕ) :
    (∃ c ∈ (a.cleaned m sigma).filter fun c => c.test, a.Hit sigma c ∧ (a.info c).lockId = id) ↔
      ∃ e ∈ entries, e.2.lockId = id ∧ Fires e ev sigma := by
  constructor
  · rintro ⟨c, hc, ⟨hthread, hnext⟩, hid⟩
    obtain ⟨hc, htest⟩ := List.mem_filter.1 hc
    obtain ⟨e, he, hp⟩ := (tracks_clean h hev ht sigma c).1 hc
    rw [h.info he] at hthread hnext hid
    rw [if_pos hthread.symm] at hp
    exact ⟨e, List.mem_of_getElem? he, hid, hnext, hp.2⟩
  · rintro ⟨e, he, hid, hf⟩
    obtain ⟨n, hn⟩ := List.mem_iff_getElem?.1 he
    obtain ⟨c, hpay, htest⟩ := ConflictT.exists_handle (h.index_le hev hn hf.2) true
    have hce : entries[c.payload]? = some e := by rw [hpay, hn]
    refine ⟨c, List.mem_filter.2 ⟨(tracks_clean h hev ht sigma c).2 ⟨e, hce, ?_⟩, htest⟩, ⟨?_, ?_⟩, ?_⟩
    · rw [if_pos (fires_threadId hf).symm]
      exact ⟨htest, hf.2⟩
    · rw [h.info hce]
      exact fires_threadId hf
    · rw [h.info hce]
      exact hf.1
    · rw [h.info hce]
      exact hid

/-- the conflicts with the past symbol `sigma` -/
theorem mem_registered (h : a.Sound entries w) {sigma : Symbol} {n : ℕ} :
    n ∈ (a.conflictMap.filter fun e => e.1.equals sigma).map Prod.snd ↔
      ∃ e, entries[n]? = some e ∧ e.1.equals sigma = true := by
  rw [h.conflictMap, List.mem_map]
  constructor
  · rintro ⟨p, hp, rfl⟩
    obtain ⟨hp, heq⟩ := List.mem_filter.1 hp
    obtain ⟨i, hi, rfl⟩ := List.mem_mapIdx.1 hp
    exact ⟨_, List.getElem?_eq_getElem hi, heq⟩
  · rintro ⟨e, hn, heq⟩
    obtain ⟨hi, rfl⟩ := List.getElem?_eq_some_iff.1 hn
    exact ⟨_, List.mem_filter.2 ⟨List.mem_mapIdx.2 ⟨n, hi, rfl⟩, heq⟩, rfl⟩

theorem not_skipped {sigma : Symbol} (hev : isEvent sigma = true) :
    ¬(sigma.isRealEpsilon || sigma.operation == .tag) = true := by
  simpa [isEvent] using hev

/-- a pattern is complete -/
theorem applyBadTraceDnf_complete {m : Monitor} {sigma : Symbol} (hev : isEvent sigma = true)
    (hf : ((a.cleaned m sigma).filter fun c => c.test).foldlM (a.visitTagged sigma)
      { m with conflicts := a.cleaned m sigma } = none) : a.applyBadTraceDnf m sigma = .ok none := by
  unfold cleaned at hf
  rw [applyBadTraceDnf, if_neg (not_skipped hev)]
  simp only [hf]

/-- no pattern is complete, and the conflicts of the symbol are registered -/
theorem applyBadTraceDnf_registers {m m' : Monitor} {sigma : Symbol} {cs : List ConflictT} (hev : isEvent sigma = true)
    (hf : ((a.cleaned m sigma).filter fun c => c.test).foldlM (a.visitTagged sigma)
      { m with conflicts := a.cleaned m sigma } = some m')
    (hreg : ((a.conflictMap.filter fun e => e.1.equals sigma).map Prod.snd).foldlM register m'.conflicts = some cs) :
    a.applyBadTraceDnf m sigma = .ok (some { m' with conflicts := cs }) := by
  unfold cleaned at hf
  rw [applyBadTraceDnf, if_neg (not_skipped hev)]
  simp only [hf, hreg]

/-- the locks that have come to their end after the event -/
theorem broken_snoc (h : a.Sound entries w) {ev : List Symbol} (hev : ev ⊆ w) {m : Monitor}
    (ht : a.Tracks entries ev m) (sigma : Symbol) (k : ℕ) : Broken entries (ev ++ [sigma]) k ↔
      m.violated k ∨ a.HitLock sigma ((a.cleaned m sigma).filter fun c => c.test) k := by
  have hlock : a.HitLock sigma ((a.cleaned m sigma).filter fun c => c.test) k ↔
      ∃ e ∈ entries, e.2.lockId = some k ∧ Fires e ev sigma := hit_iff h hev ht sigma (some k)
  rw [hlock, ht.violated, Broken, Broken]
  simp only [fired_snoc, and_or_left, exists_or]

/-- the event completes a violation iff the history with the event is the first that violates a clause -/
theorem complete_iff (h : a.Sound entries w) {ev : List Symbol} (hev : ev ⊆ w) {m : Monitor}
    (ht : a.Tracks entries ev m) (hsafe : ¬a.Rejected entries ev) (sigma : Symbol) :
    a.Complete sigma { m with conflicts := a.cleaned m sigma } ((a.cleaned m sigma).filter fun c => c.test) ↔
      a.Rejected entries (ev ++ [sigma]) := by
  have hnone := hit_iff h hev ht sigma none
  have hbroken := broken_snoc h hev ht sigma
  constructor
  · rintro (hc | hc)
    · obtain ⟨e, he, hid, hf⟩ := hnone.1 hc
      exact Or.inl ⟨e, he, hid, fired_snoc.2 (Or.inr hf)⟩
    · exact Or.inr (hc.mono fun k hk => (hbroken k).2 hk)
  · rintro (⟨e, he, hid, hf⟩ | hc)
    · rcases fired_snoc.1 hf with hf | hf
      · exact absurd (Or.inl ⟨e, he, hid, hf⟩) hsafe
      · exact Or.inl (hnone.2 ⟨e, he, hid, hf⟩)
    · exact Or.inr (hc.mono fun k hk => (hbroken k).1 hk)

/-- a conflict is pending after the event iff it stays in the list or the event is its past symbol -/
theorem pending_iff (h : a.Sound entries w) {ev : List Symbol} (hev : ev ⊆ w) {m : Monitor}
    (ht : a.Tracks entries ev m) (sigma : Symbol) (c : ConflictT) :
    (c ∈ a.cleaned m sigma ∧
        ¬(c ∈ ((a.cleaned m sigma).filter fun c => c.test) ∧ (a.info c).nextThread = sigma.threadId)) ∨
      ((∃ e, entries[c.payload]? = some e ∧ e.1.equals sigma = true) ∧ c.test = false) ↔
      ∃ e, entries[c.payload]? = some e ∧ Pending e (ev ++ [sigma]) c.test := by
  rw [List.mem_filter, tracks_clean h hev ht]
  constructor
  · rintro (⟨⟨e, he, hp⟩, hn⟩ | ⟨⟨e, he, heq⟩, htest⟩)
    · refine ⟨e, he, ?_⟩
      rw [h.info he] at hn
      split_ifs at hp with hsame
      · refine absurd ⟨⟨⟨e, he, ?_⟩, hp.1⟩, hsame.symm⟩ hn
        rw [if_pos hsame]
        exact hp
      · exact hp
    · have hsame : sigma.threadId = e.2.nextThread := by
        rw [← h.thread e (List.mem_of_getElem? he), Symbol.threadId_eq_of_equals heq]
      exact ⟨e, he, (pending_snoc_own hsame).2 ⟨heq, htest⟩⟩
  · rintro ⟨e, he, hp⟩
    by_cases hsame : sigma.threadId = e.2.nextThread
    · obtain ⟨heq, htest⟩ := (pending_snoc_own hsame).1 hp
      exact Or.inr ⟨⟨e, he, heq⟩, htest⟩
    · refine Or.inl ⟨⟨e, he, by rw [if_neg hsame]; exact hp⟩, ?_⟩
      rintro ⟨-, hthread⟩
      rw [h.info he] at hthread
      exact hsame hthread.symm

/-- **One event.** -/
theorem tracks_step (h : a.Sound entries w) {ev : List Symbol} {m : Monitor} (ht : a.Tracks entries ev m)
    (hsafe : ¬a.Rejected entries ev) {sigma : Symbol} (hsub : ev ++ [sigma] ⊆ w) (hev : isEvent sigma = true) :
    (a.Rejected entries (ev ++ [sigma]) ∧ a.applyBadTraceDnf m sigma = .ok none) ∨
      (¬a.Rejected entries (ev ++ [sigma]) ∧
        ∃ m', a.applyBadTraceDnf m sigma = .ok (some m') ∧ a.Tracks entries (ev ++ [sigma]) m') := by
  have hsub' : ev ⊆ w := fun s hs => hsub (List.mem_append_left _ hs)
  have hcomplete := complete_iff h hsub' ht hsafe sigma
  have hids : ∀ c ∈ (a.cleaned m sigma).filter fun c => c.test, ∀ k, (a.info c).lockId = some k → k < a.locksSize := by
    intro c hc k hk
    obtain ⟨e, he, -⟩ := (tracks_clean h hsub' ht sigma c).1 (List.mem_filter.1 hc).1
    rw [h.info he] at hk
    exact h.lockId e (List.mem_of_getElem? he) k hk
  have hcov : ¬a.Covered m.violated := fun hc => hsafe (Or.inr (hc.mono fun l => (ht.violated l).1))
  rcases foldlM_visitTagged h.padded sigma hids (m := { m with conflicts := a.cleaned m sigma }) ht.length hcov with
    ⟨hc, hf⟩ | ⟨hc, m', hf, hlen', hviol', hconf'⟩
  · left
    exact ⟨hcomplete.1 hc, applyBadTraceDnf_complete hev hf⟩
  · right
    have hidx : ∀ n ∈ (a.conflictMap.filter fun e => e.1.equals sigma).map Prod.snd, n ≤ maxPayload := by
      intro n hn
      obtain ⟨e, he, heq⟩ := (mem_registered h).1 hn
      exact h.size n e he ⟨sigma, hsub (by simp), heq⟩
    obtain ⟨cs', hreg, hmem⟩ := foldlM_register hidx m'.conflicts
    refine ⟨fun hr => hc (hcomplete.2 hr), { m' with conflicts := cs' }, applyBadTraceDnf_registers hev hf hreg, ?_⟩
    refine ⟨hlen', fun l => (hviol' l).trans (broken_snoc h hsub' ht sigma l).symm, fun c => ?_⟩
    rw [hmem, hconf', mem_registered h]
    exact pending_iff h hsub' ht sigma c

/-! ## Words -/

theorem applyBadTraceDnf_other {m : Monitor} {sigma : Symbol} (h : isEvent sigma = false) :
    a.applyBadTraceDnf m sigma = .ok (some m) := by
  have hyes : (sigma.isRealEpsilon || sigma.operation == .tag) = true := by
    rw [isEvent, Bool.not_eq_false'] at h
    exact h
  rw [applyBadTraceDnf, if_pos hyes]

/-- the monitor, started on a history that violates nothing, accepts what keeps it so -/
theorem monitorRun_tracks (h : a.Sound entries w) {ev : List Symbol} {m : Monitor} (ht : a.Tracks entries ev m)
    (hsafe : ¬a.Rejected entries ev) (v : List Symbol) (hsub : ev ++ events v ⊆ w) :
    (a.Rejected entries (ev ++ events v) ∧ a.monitorRun m v = .ok none) ∨
      (¬a.Rejected entries (ev ++ events v) ∧
        ∃ m', a.monitorRun m v = .ok (some m') ∧ a.Tracks entries (ev ++ events v) m') := by
  induction v generalizing ev m with
  | nil => exact Or.inr ⟨by simpa [events] using hsafe, m, rfl, by simpa [events] using ht⟩
  | cons sigma v ih =>
    rw [monitorRun]
    cases hev : isEvent sigma with
    | false =>
      have hv : events (sigma :: v) = events v := by simp [events, hev]
      rw [hv] at hsub ⊢
      rw [applyBadTraceDnf_other hev]
      exact ih ht hsafe hsub
    | true =>
      have hv : ev ++ events (sigma :: v) = ev ++ [sigma] ++ events v := by simp [events, hev]
      rw [hv] at hsub ⊢
      have hstep := tracks_step h ht hsafe (fun s hs => hsub (List.mem_append_left _ hs)) hev
      rcases hstep with ⟨hr, happly⟩ | ⟨hr, m', happly, ht'⟩
      · exact Or.inl ⟨hr.append _, by rw [happly]⟩
      · rw [happly]
        exact ih ht' hr hsub

/-! ## Entries and clauses -/

theorem not_rejected_nil (h : a.Sound entries w) : ¬a.Rejected entries [] := by
  have hno : ∀ e, ¬Fired e [] := by
    rintro e ⟨pre, x, post, heq, -⟩
    simp at heq
  rintro (⟨e, -, -, hf⟩ | hc)
  · exact hno e hf
  · exact h.clean (hc.mono fun l hl => by
      obtain ⟨e, -, -, hf⟩ := hl
      exact hno e hf)

theorem mem_lockConflicts {lock : LockLists} {id : Option ℕ} {e : Symbol × ConflictInfo} :
    e ∈ lockConflicts lock id ↔ ∃ it ∈ lock, ∃ uv ∈ neighbours it, ∃ it2 ∈ lock, frontThread it ≠ frontThread it2 ∧
      it2.filter (fun sy => !sy.isRealEpsilon) ≠ [] ∧ e =
        (uv.1, ⟨it2.filter fun sy => !sy.isRealEpsilon, uv.2, id⟩) := by
  simp only [lockConflicts, List.mem_flatMap, List.mem_filterMap, List.mem_filter, decide_eq_true_eq, List.isEmpty_iff]
  constructor
  · rintro ⟨it, hit, uv, huv, it2, ⟨hit2, hne⟩, heq⟩
    split_ifs at heq with hempty
    exact ⟨it, hit, uv, huv, it2, hit2, hne, hempty, (Option.some.inj heq).symm⟩
  · rintro ⟨it, hit, uv, huv, it2, hit2, hne, hempty, rfl⟩
    exact ⟨it, hit, uv, huv, it2, ⟨hit2, hne⟩, by rw [if_neg hempty]⟩

theorem mem_of_neighbours {it : LockList} {uv : Symbol × Symbol} (h : uv ∈ neighbours it) : uv.1 ∈ it ∧ uv.2 ∈ it := by
  have h1 := (List.of_mem_zip h).1
  have h2 := List.mem_of_mem_tail (List.of_mem_zip h).2
  exact ⟨List.mem_of_mem_filter h1, List.mem_of_mem_filter h2⟩

/-- an event is in a list iff it is among the symbols of the list that are no epsilon -/
theorem isIn_filter {s : Symbol} (hs : isEvent s = true) (l : List Symbol) :
    s.isIn (l.filter fun sy => !sy.isRealEpsilon) = s.isIn l := by
  simp only [isEvent, Bool.not_eq_true', Bool.or_eq_false_iff, beq_eq_false_iff_ne, ne_eq] at hs
  apply Bool.eq_iff_iff.2
  rw [Symbol.isIn_iff, Symbol.isIn_iff]
  constructor
  · rintro ⟨t, ht, heq⟩
    exact ⟨t, List.mem_of_mem_filter ht, heq⟩
  · rintro ⟨t, ht, heq⟩
    refine ⟨t, List.mem_filter.2 ⟨ht, ?_⟩, heq⟩
    have hop := Symbol.operation_eq_of_equals heq hs.2
    simpa [Symbol.isRealEpsilon, hop] using hs.1

/-- a lock is violated iff one of its conflicts has come to its end -/
theorem violatesLock_iff {lock : LockLists} {ev : List Symbol}
    (hev : ∀ s ∈ ev, isEvent s = true) (id : Option ℕ) :
    ViolatesLock lock ev ↔ ∃ e ∈ lockConflicts lock id, Fired e ev := by
  constructor
  · rintro ⟨pre, x, b, y, post, rfl, hxy, hb, it, hit, uv, huv, hu, hv, s, hs, it2, hit2, hne, hin⟩
    have hse : isEvent s = true := hev s (by simp [hs])
    rw [← isIn_filter hse] at hin
    have hempty : it2.filter (fun sy => !sy.isRealEpsilon) ≠ [] := by
      intro h
      rw [h] at hin
      simp [Symbol.isIn] at hin
    refine ⟨_, mem_lockConflicts.2 ⟨it, hit, uv, huv, it2, hit2, hne, hempty, rfl⟩, pre ++ x :: b, y, post, by simp,
      Symbol.equals_symm hv, x, b, ?_, hu, ?_⟩
    · have hthread : y.threadId = uv.2.threadId := (Symbol.threadId_eq_of_equals hv).symm
      exact since_eq_some.2 ⟨pre, rfl, hxy.trans hthread, fun z hz => by
        show z.threadId ≠ uv.2.threadId
        rw [← hthread]
        exact hb z hz⟩
    · simp only [true_iff]
      exact ⟨s, hs, hin⟩
  · rintro ⟨e, he, pre', y, post, rfl, hnext, x, b, hsince, hu, htag⟩
    obtain ⟨it, hit, uv, huv, it2, hit2, hne, -, rfl⟩ := mem_lockConflicts.1 he
    obtain ⟨pre, rfl, hx, hb⟩ := since_eq_some.1 hsince
    have hthread : y.threadId = uv.2.threadId := Symbol.threadId_eq_of_equals hnext
    obtain ⟨s, hs, hin⟩ := htag.1 rfl
    rw [isIn_filter (hev s (by simp [hs]))] at hin
    exact ⟨pre, x, b, y, post, by simp, hx.trans hthread.symm, fun z hz => hthread ▸ hb z hz, it, hit, uv, huv, hu,
      Symbol.equals_symm hnext, s, hs, it2, hit2, hne, hin⟩

/-- the locks of the clauses are made of lists as the synthesis makes them -/
def WellFormedClauses (clauses : List (Disj LockLists)) : Prop := ∀ cl ∈ clauses, ∀ lock ∈ cl, SingleThreaded lock

theorem mem_lockTable {lock : LockLists} (h : lock ∈ lockTable clauses) : ∃ cl ∈ clauses, lock ∈ cl := by
  obtain ⟨cl, hcl, hlock⟩ := List.mem_flatten.1 h
  exact ⟨cl, List.mem_of_mem_filter hcl, hlock⟩

theorem lockConflicts_thread {lock : LockLists} (hst : SingleThreaded lock) {id : Option ℕ}
    {e : Symbol × ConflictInfo} (he : e ∈ lockConflicts lock id) : e.1.threadId = e.2.nextThread ∧ e.2.lockId = id := by
  obtain ⟨it, hit, uv, huv, it2, -, -, -, rfl⟩ := mem_lockConflicts.1 he
  obtain ⟨h1, h2⟩ := mem_of_neighbours huv
  exact ⟨(hst it hit).2 _ h1 _ h2, rfl⟩

theorem getD_interval {n start len l : ℕ} :
    (interval n start len).getD l false = true ↔ l < n ∧ start ≤ l ∧ l < start + len := by
  rw [List.getD_eq_getElem?_getD, interval, List.getElem?_map]
  by_cases hl : l < n
  · simp [hl]
  · simp [hl]

theorem Installed.mem_locks' (h : a.Installed clauses entries) (hpad : a.Padded) {bad : List Bool} :
    bad ∈ a.locks ↔ PatternOf clauses a.locksSize bad := by
  rw [← h.mem_locks _ (Nat.le_refl _), List.mem_map]
  constructor
  · intro hbad
    exact ⟨bad, hbad, resize_of_length (hpad bad hbad)⟩
  · rintro ⟨bits, hbits, rfl⟩
    rwa [resize_of_length (hpad bits hbits)]

theorem Installed.sound (h : a.Installed clauses entries) (hpad : a.Padded) (hwf : WellFormedClauses clauses)
    (hsize : Handled entries w) : a.Sound entries w := by
  refine ⟨h.conflicts, h.conflictMap, hpad, fun e he l hl => ?_, hsize, fun e he => ?_, ?_⟩
  · rcases (h.mem_entries e).1 he with ⟨lock, hcl, hc⟩ | ⟨k, lock, hk, hc⟩
    · rw [(lockConflicts_thread (hwf _ hcl lock (by simp)) hc).2] at hl
      simp at hl
    · obtain ⟨cl, hcl, hlock⟩ := mem_lockTable (List.mem_of_getElem? hk)
      rw [(lockConflicts_thread (hwf cl hcl lock hlock) hc).2, Option.some.injEq] at hl
      rw [h.locksSize, ← hl]
      exact (List.getElem?_eq_some_iff.1 hk).1
  · rcases (h.mem_entries e).1 he with ⟨lock, hcl, hc⟩ | ⟨k, lock, hk, hc⟩
    · exact (lockConflicts_thread (hwf _ hcl lock (by simp)) hc).1
    · obtain ⟨cl, hcl, hlock⟩ := mem_lockTable (List.mem_of_getElem? hk)
      exact (lockConflicts_thread (hwf cl hcl lock hlock) hc).1
  · -- a pattern has at least two locks
    rintro ⟨bad, hbad, hall⟩
    obtain ⟨pre, cl, post, hcls, hlen, rfl⟩ := (h.mem_locks' hpad).1 hbad
    refine hall (lockTable pre).length (getD_interval.2 ⟨?_, Nat.le_refl _, by omega⟩)
    rw [h.locksSize, hcls, lockTable_append, show cl :: post = [cl] ++ post from rfl, lockTable_append,
      lockTable_multiple hlen]
    simp only [List.length_append]
    omega

/-- the lock with number `start + i` of a clause with several locks -/
theorem lockTable_getElem? {pre post : List (Disj LockLists)} {cl : Disj LockLists} (hlen : 1 < cl.length) {i : ℕ}
    (hi : i < cl.length) : (lockTable (pre ++ cl :: post))[(lockTable pre).length + i]? = cl[i]? := by
  rw [lockTable_append, show cl :: post = [cl] ++ post from rfl, lockTable_append, lockTable_multiple hlen,
    List.getElem?_append_right (by omega), Nat.add_sub_cancel_left, List.getElem?_append_left hi]

section

variable {ev : List Symbol} (h : a.Installed clauses entries) (hwf : WellFormedClauses clauses)
  (hev : ∀ s ∈ ev, isEvent s = true)
include h hwf hev

/-- the lock of a clause with no other lock -/
theorem Installed.single_iff :
    (∃ e ∈ entries, e.2.lockId = none ∧ Fired e ev) ↔ ∃ lock, [lock] ∈ clauses ∧ ViolatesLock lock ev := by
  constructor
  · rintro ⟨e, he, hid, hf⟩
    rcases (h.mem_entries e).1 he with ⟨lock, hcl, hc⟩ | ⟨k, lock, hk, hc⟩
    · exact ⟨lock, hcl, (violatesLock_iff hev none).2 ⟨e, hc, hf⟩⟩
    · obtain ⟨cl, hcl, hlock⟩ := mem_lockTable (List.mem_of_getElem? hk)
      rw [(lockConflicts_thread (hwf cl hcl lock hlock) hc).2] at hid
      simp at hid
  · rintro ⟨lock, hcl, hviol⟩
    obtain ⟨e, he, hf⟩ := (violatesLock_iff hev none).1 hviol
    exact ⟨e, (h.mem_entries e).2 (Or.inl ⟨lock, hcl, he⟩),
      (lockConflicts_thread (hwf _ hcl lock (by simp)) he).2, hf⟩

/-- a lock of the table -/
theorem Installed.broken_iff {l : ℕ} {lock : LockLists} (hl : (lockTable clauses)[l]? = some lock) :
    Broken entries ev l ↔ ViolatesLock lock ev := by
  obtain ⟨cl, hcl, hlock⟩ := mem_lockTable (List.mem_of_getElem? hl)
  rw [violatesLock_iff hev (some l)]
  constructor
  · rintro ⟨e, he, hid, hf⟩
    rcases (h.mem_entries e).1 he with ⟨lock', hcl', hc⟩ | ⟨k, lock', hk, hc⟩
    · rw [(lockConflicts_thread (hwf _ hcl' lock' (by simp)) hc).2] at hid
      simp at hid
    · obtain ⟨cl', hcl', hlock'⟩ := mem_lockTable (List.mem_of_getElem? hk)
      rw [(lockConflicts_thread (hwf cl' hcl' lock' hlock') hc).2, Option.some.injEq] at hid
      subst hid
      obtain rfl : lock' = lock := by simpa [hk] using hl
      exact ⟨e, hc, hf⟩
  · rintro ⟨e, he, hf⟩
    exact ⟨e, (h.mem_entries e).2 (Or.inr ⟨l, lock, hl, he⟩),
      (lockConflicts_thread (hwf cl hcl lock hlock) he).2, hf⟩

/-- the pattern of a clause with several locks is covered iff all of its locks are violated -/
theorem Installed.pattern_iff {pre post : List (Disj LockLists)} {cl : Disj LockLists}
    (hcls : clauses = pre ++ cl :: post) (hlen : 1 < cl.length) :
    (∀ l, (interval a.locksSize (lockTable pre).length cl.length).getD l false = true → Broken entries ev l) ↔
      ViolatesClause cl ev := by
  have htable : ∀ i < cl.length, (lockTable clauses)[(lockTable pre).length + i]? = cl[i]? := by
    intro i hi
    rw [hcls]
    exact lockTable_getElem? hlen hi
  constructor
  · intro hall lock hlock
    obtain ⟨i, hi⟩ := List.mem_iff_getElem?.1 hlock
    have hil : i < cl.length := (List.getElem?_eq_some_iff.1 hi).1
    have hl := (htable i hil).trans hi
    refine (h.broken_iff hwf hev hl).1 (hall _ (getD_interval.2 ⟨?_, by omega, by omega⟩))
    rw [h.locksSize]
    exact (List.getElem?_eq_some_iff.1 hl).1
  · intro hviol l hl
    obtain ⟨-, hlo, hhi⟩ := getD_interval.1 hl
    obtain ⟨i, rfl⟩ : ∃ i, l = (lockTable pre).length + i := ⟨l - (lockTable pre).length, by omega⟩
    have hil : i < cl.length := by omega
    have ht := htable i hil
    rw [List.getElem?_eq_getElem hil] at ht
    exact (h.broken_iff hwf hev ht).2 (hviol _ (List.getElem_mem hil))

/-- the tables reject what violates a clause that has a lock -/
theorem rejected_iff (hpad : a.Padded) :
    a.Rejected entries ev ↔ ∃ cl ∈ clauses, cl ≠ [] ∧ ViolatesClause cl ev := by
  constructor
  · rintro (hs | ⟨bad, hbad, hall⟩)
    · obtain ⟨lock, hcl, hviol⟩ := (h.single_iff hwf hev).1 hs
      refine ⟨[lock], hcl, by simp, fun lock' hl => ?_⟩
      rwa [List.mem_singleton.1 hl]
    · obtain ⟨pre, cl, post, hcls, hlen, rfl⟩ := (h.mem_locks' hpad).1 hbad
      exact ⟨cl, by simp [hcls], by rintro rfl; simp at hlen, (h.pattern_iff hwf hev hcls hlen).1 hall⟩
  · rintro ⟨cl, hcl, hne, hviol⟩
    by_cases hlen : 1 < cl.length
    · right
      obtain ⟨pre, post, hcls⟩ := List.append_of_mem hcl
      exact ⟨_, (h.mem_locks' hpad).2 ⟨pre, cl, post, hcls, hlen, rfl⟩, (h.pattern_iff hwf hev hcls hlen).2 hviol⟩
    · left
      obtain ⟨lock, rfl⟩ : ∃ lock, cl = [lock] := by
        match cl, hne, hlen with
        | [lock], _, _ => exact ⟨lock, rfl⟩
        | _ :: _ :: _, _, hlen => simp at hlen
      exact (h.single_iff hwf hev).2 ⟨lock, hcl, hviol lock (by simp)⟩

end

/-- the monitor rejects or accepts every word, by the clauses that it violates -/
theorem monitorRun_cases (h : a.Installed clauses entries) (hpad : a.Padded) (hwf : WellFormedClauses clauses)
    (hsize : Handled entries w) :
    ((∃ cl ∈ clauses, cl ≠ [] ∧ ViolatesClause cl (events w)) ∧ a.monitorRun a.startMonitor w = .ok none) ∨
      ((∀ cl ∈ clauses, cl ≠ [] → ¬ViolatesClause cl (events w)) ∧
        ∃ m, a.monitorRun a.startMonitor w = .ok (some m)) := by
  have hs := h.sound hpad hwf hsize
  have hev : ∀ s ∈ events w, isEvent s = true := fun s hs => (List.mem_filter.1 hs).2
  have hrej := rejected_iff h hwf hev hpad
  have hsub : [] ++ events w ⊆ w := fun s hs => (List.mem_filter.1 hs).1
  rcases monitorRun_tracks hs (tracks_start a entries) (not_rejected_nil hs) w hsub with ⟨hr, hrun⟩ | ⟨hr, m, hrun, -⟩
  · exact Or.inl ⟨hrej.1 hr, hrun⟩
  · exact Or.inr ⟨fun cl hcl hne hv => hr (hrej.2 ⟨cl, hcl, hne, hv⟩), m, hrun⟩

/-- **The monitor accepts a word iff the word violates no clause.** -/
theorem monitorRun_iff (h : a.Installed clauses entries) (hpad : a.Padded) (hwf : WellFormedClauses clauses)
    (hsize : Handled entries w) :
    (∃ m, a.monitorRun a.startMonitor w = .ok (some m)) ↔ ∀ cl ∈ clauses, cl ≠ [] → ¬ViolatesClause cl (events w) := by
  rcases monitorRun_cases h hpad hwf hsize with ⟨⟨cl, hcl, hne, hv⟩, hrun⟩ | ⟨hall, m, hrun⟩
  · rw [hrun]
    constructor
    · intro ⟨m, hm⟩
      simp at hm
    · exact fun hall => absurd hv (hall cl hcl hne)
  · exact ⟨fun _ => hall, fun _ => ⟨m, hrun⟩⟩

/-- it rejects a word iff the word violates a clause -/
theorem monitorRun_none_iff (h : a.Installed clauses entries) (hpad : a.Padded) (hwf : WellFormedClauses clauses)
    (hsize : Handled entries w) :
    a.monitorRun a.startMonitor w = .ok none ↔ ∃ cl ∈ clauses, cl ≠ [] ∧ ViolatesClause cl (events w) := by
  rcases monitorRun_cases h hpad hwf hsize with ⟨hv, hrun⟩ | ⟨hall, m, hrun⟩
  · exact ⟨fun _ => hv, fun _ => hrun⟩
  · rw [hrun]
    constructor
    · intro hm
      simp at hm
    · intro ⟨cl, hcl, hne, hv⟩
      exact absurd hv (hall cl hcl hne)

end ConcurrentAutomaton

end Liss
