/-
The pairs of locks and unlocks that `prepare_trace` gathers.

The locations are visited thread by thread, and an unlock is entered at the last lock of its variable so far.

- `Gathered`: the unlock of a lock is the last one that is visited before the next lock;
- `lockings_gathered`, `lockings_isSome`: this is what `lockings` holds, unless an unlock is visited before all locks;
- `Alternates`: each thread locks and unlocks a variable in turn;
- `lockings_paired`: in such a trace the unlock of a lock comes later in the same thread;
- `locks_isSome`: no unlock is met before a lock.
-/
import Liss.Synthesis.Orderings

namespace Liss.Synthesis

/-! ## Alternating traces -/

/-- lock, unlock, lock, … -/
def Alternating : List OpClass → Prop
  | [] => True
  | [op] => op = .lock
  | op :: op2 :: ops => op = .lock ∧ op2 = .unlock ∧ Alternating ops

instance decidableAlternating : (ops : List OpClass) → Decidable (Alternating ops)
  | [] => isTrue trivial
  | [op] => inferInstanceAs (Decidable (op = .lock))
  | op :: op2 :: ops =>
    have := decidableAlternating ops
    inferInstanceAs (Decidable (op = .lock ∧ op2 = .unlock ∧ Alternating ops))

def isLockOp (t v : ℕ) (s : Symbol) : Bool :=
  s.threadId == t && s.var == v && (s.operation == .lock || s.operation == .unlock)

/-- the locks and unlocks of a variable in a thread -/
def lockOps (w : List Symbol) (t v : ℕ) : List Symbol := w.filter (isLockOp t v)

/-- each thread alternates lock and unlock, for every lock -/
def Alternates (w : List Symbol) : Prop := ∀ t v, Alternating ((lockOps w t v).map Symbol.operation)

theorem Alternating.ne_unlock {ops : List OpClass} (h : Alternating (.unlock :: ops)) : False := by
  cases ops with
  | nil => simp [Alternating] at h
  | cons op ops => simp [Alternating] at h

variable {threads : ℕ} {w : List Symbol} {var : ℕ}

/-- a thread that unlocks has locked before -/
theorem Alternates.exists_lock (h : Alternates w) {l : TraceLocation} (hl : l ∈ splitTrace w)
    (hop : l.symbol.operation = .unlock) :
    ∃ x ∈ splitTrace w, x.symbol.operation = .lock ∧ x.symbol.var = l.symbol.var ∧ x.threadId = l.threadId ∧
      x.position < l.position := by
  obtain ⟨hi, hs⟩ := List.getElem?_eq_some_iff.1 (mem_splitTrace.1 hl)
  have hw : w = w.take l.position ++ l.symbol :: w.drop (l.position + 1) := by
    rw [← hs, ← List.drop_eq_getElem_cons hi, List.take_append_drop]
  have halt := h l.threadId l.symbol.var
  have hown : isLockOp l.threadId l.symbol.var l.symbol = true := by simp [isLockOp, TraceLocation.threadId, hop]
  rw [lockOps, hw, List.filter_append, List.filter_cons_of_pos hown, List.map_append, List.map_cons, hop] at halt
  -- the first operation is a lock, so it comes before the unlock
  cases hpre : (w.take l.position).filter (isLockOp l.threadId l.symbol.var) with
  | nil =>
    rw [hpre] at halt
    exact absurd halt Alternating.ne_unlock
  | cons s rest =>
    have hsm : s ∈ (w.take l.position).filter (isLockOp l.threadId l.symbol.var) := by
      rw [hpre]
      exact List.mem_cons_self
    obtain ⟨hst, hsp⟩ := List.mem_filter.1 hsm
    simp only [isLockOp, Bool.and_eq_true, Bool.or_eq_true, beq_iff_eq] at hsp
    obtain ⟨j, hj, hget⟩ := List.mem_take_iff_getElem.1 hst
    have hjw : j < w.length := by omega
    refine ⟨⟨s, j⟩, mem_splitTrace.2 (List.getElem?_eq_some_iff.2 ⟨hjw, hget⟩), ?_, hsp.1.2, hsp.1.1, by simp; omega⟩
    rw [hpre, List.map_cons, List.cons_append] at halt
    rcases hsp.2 with hlock | hunlock
    · exact hlock
    · rw [hunlock] at halt
      exact absurd halt Alternating.ne_unlock

/-- only the threads and variables of the trace have to be looked at -/
theorem alternates_of {w : List Symbol} (h : ∀ s ∈ w, Alternating ((lockOps w s.threadId s.var).map Symbol.operation)) :
    Alternates w := by
  intro t v
  by_cases hs : ∃ s ∈ w, s.threadId = t ∧ s.var = v
  · obtain ⟨s, hs, rfl, rfl⟩ := hs
    exact h s hs
  · have hnil : lockOps w t v = [] := by
      refine List.filter_eq_nil_iff.2 fun s hsw hp => hs ⟨s, hsw, ?_⟩
      simp only [isLockOp, Bool.and_eq_true, beq_iff_eq] at hp
      exact hp.1
    rw [hnil]
    trivial

/-! ## The order of the loops -/

/-- by thread, then by position -/
def Visited (x y : TraceLocation) : Prop :=
  x.threadId < y.threadId ∨ (x.threadId = y.threadId ∧ x.position < y.position)

theorem mem_traversal (hw : OfThreads threads w) {l : TraceLocation} : l ∈ traversal threads w ↔ l ∈ splitTrace w := by
  simp only [traversal, List.mem_flatMap, List.mem_range, mem_threadedTrace]
  constructor
  · rintro ⟨t, -, hl, -⟩
    exact hl
  · intro hl
    exact ⟨l.threadId, hw.location hl, hl, rfl⟩

theorem traversal_visited (threads : ℕ) (w : List Symbol) : (traversal threads w).Pairwise Visited := by
  rw [traversal, List.pairwise_flatMap]
  constructor
  · intro t _
    refine ((splitTrace_increasing w).filter _).imp_of_mem ?_
    intro x y hx hy hlt
    have hx := (mem_threadedTrace.1 hx).2
    have hy := (mem_threadedTrace.1 hy).2
    exact Or.inr ⟨hx.trans hy.symm, hlt⟩
  · apply List.pairwise_lt_range.imp
    intro t t' htt x hx y hy
    rw [← (mem_threadedTrace.1 hx).2, ← (mem_threadedTrace.1 hy).2] at htt
    exact Or.inl htt

theorem mem_gather_iff (hw : OfThreads threads w) {operations : List OpClass} {l : TraceLocation} :
    l ∈ gather threads w operations var ↔ l ∈ splitTrace w ∧ l.symbol.var = var ∧ l.symbol.operation ∈ operations := by
  simp [gather, mem_traversal hw]

/-- the places of two locations in the traversal are comparable -/
theorem visited_total {x y : TraceLocation} (hx : x ∈ splitTrace w) (hy : y ∈ splitTrace w) :
    Visited x y ∨ x = y ∨ Visited y x := by
  have heq : x.position = y.position → x = y := eq_of_position hx hy
  unfold Visited
  rcases lt_trichotomy x.threadId y.threadId with ht | ht | ht
  · exact Or.inl (Or.inl ht)
  · rcases lt_trichotomy x.position y.position with hp | hp | hp
    · exact Or.inl (Or.inr ⟨ht, hp⟩)
    · exact Or.inr (Or.inl (heq hp))
    · exact Or.inr (Or.inr (Or.inr ⟨ht.symm, hp⟩))
  · exact Or.inr (Or.inr (Or.inl ht))

theorem Visited.trans {x y z : TraceLocation} (h : Visited x y) (h' : Visited y z) : Visited x z := by
  unfold Visited at *
  omega

theorem Visited.irrefl {x : TraceLocation} (h : Visited x x) : False := by
  unfold Visited at h
  omega

/-! ## The pairs -/

def isLockOf (var : ℕ) (l : TraceLocation) : Bool := l.symbol.operation == .lock && l.symbol.var == var

def isUnlockOf (var : ℕ) (l : TraceLocation) : Bool := l.symbol.operation == .unlock && l.symbol.var == var

/-- an unlock that is visited after a lock and before the next lock -/
structure Within (var : ℕ) (done : List TraceLocation) (lock u : TraceLocation) : Prop where
  mem : u ∈ done
  unlock : isUnlockOf var u = true
  after : Visited lock u
  next : ∀ x ∈ done, isLockOf var x = true → Visited lock x → Visited u x

/-- the pairs after some locations have been visited: the unlock of a lock is the last one before the next lock -/
structure Gathered (var : ℕ) (done : List TraceLocation) (prs : List LockPair) : Prop where
  locks : prs.map LockPair.lock = done.filter (isLockOf var)
  ended : ∀ pr ∈ prs, ∀ u, pr.unlock = some u → Within var done pr.lock u
  last : ∀ pr ∈ prs, ∀ u', Within var done pr.lock u' → ∃ u, pr.unlock = some u ∧ (u = u' ∨ Visited u' u)

theorem setUnlock_eq_some {l : TraceLocation} {prs prs' : List LockPair} (h : setUnlock l prs = some prs') :
    ∃ init last, prs = init ++ [last] ∧ prs' = init ++ [{ last with unlock := some l }] := by
  induction prs generalizing prs' with
  | nil => simp [setUnlock] at h
  | cons pr prs ih =>
    cases prs with
    | nil =>
      simp only [setUnlock, Option.some.injEq] at h
      exact ⟨[], pr, rfl, h.symm⟩
    | cons pr2 prs =>
      simp only [setUnlock, Option.map_eq_some_iff] at h
      obtain ⟨prs1, h1, rfl⟩ := h
      obtain ⟨init, last, heq, rfl⟩ := ih h1
      exact ⟨pr :: init, last, by rw [heq]; rfl, rfl⟩

theorem setUnlock_isSome {l : TraceLocation} {prs : List LockPair} : (setUnlock l prs).isSome = true ↔ prs ≠ [] := by
  induction prs with
  | nil => simp [setUnlock]
  | cons pr prs ih =>
    cases prs with
    | nil => simp [setUnlock]
    | cons pr2 prs => simpa [setUnlock] using ih

/-- the only failure is an unlock that meets an empty list -/
theorem addLocking_isSome {prs : List LockPair} {l : TraceLocation} :
    (addLocking var prs l).isSome = true ↔ (isUnlockOf var l = true → prs ≠ []) := by
  unfold addLocking isUnlockOf
  by_cases hvar : l.symbol.var = var
  · rw [if_neg (not_not.2 hvar)]
    cases l.symbol.operation <;> simp [hvar, setUnlock_isSome]
  · simp [hvar]

section
variable {done : List TraceLocation} {l lock u : TraceLocation} {prs prs' : List LockPair}

/-- a new location does not end the sections before, unless it is an unlock -/
theorem within_snoc (hpw : (done ++ [l]).Pairwise Visited) (hul : u ≠ l) :
    Within var (done ++ [l]) lock u ↔ Within var done lock u := by
  have hbefore : ∀ x ∈ done, Visited x l := fun x hx => (List.pairwise_append.1 hpw).2.2 x hx l (by simp)
  constructor
  · intro h
    have hu : u ∈ done := (List.mem_append.1 h.mem).resolve_right fun hu => hul (List.mem_singleton.1 hu)
    exact ⟨hu, h.unlock, h.after, fun x hx => h.next x (by simp [hx])⟩
  · intro h
    refine ⟨by simp [h.mem], h.unlock, h.after, fun x hx hlock hvis => ?_⟩
    rcases List.mem_append.1 hx with hx | hx
    · exact h.next x hx hlock hvis
    · rw [List.mem_singleton.1 hx]
      exact hbefore u h.mem

theorem Gathered.mem_lock (h : Gathered var done prs) {pr : LockPair} (hpr : pr ∈ prs) :
    pr.lock ∈ done ∧ isLockOf var pr.lock = true := by
  have hmem : pr.lock ∈ prs.map LockPair.lock := List.mem_map_of_mem hpr
  rw [h.locks] at hmem
  exact List.mem_filter.1 hmem

/-- a location that is no unlock leaves the sections as they are -/
theorem Gathered.snoc (h : Gathered var done prs) (hpw : (done ++ [l]).Pairwise Visited)
    (hno : isUnlockOf var l = false) :
    (∀ pr ∈ prs, ∀ u, pr.unlock = some u → Within var (done ++ [l]) pr.lock u) ∧
      ∀ pr ∈ prs, ∀ u', Within var (done ++ [l]) pr.lock u' → ∃ u, pr.unlock = some u ∧ (u = u' ∨ Visited u' u) := by
  have hne : ∀ u, isUnlockOf var u = true → u ≠ l := by
    rintro u hu rfl
    rw [hno] at hu
    exact absurd hu (by simp)
  refine ⟨fun pr hpr u hu => ?_, fun pr hpr u' hu' => h.last pr hpr u' ((within_snoc hpw (hne u' hu'.unlock)).1 hu')⟩
  have hin := h.ended pr hpr u hu
  exact (within_snoc hpw (hne u hin.unlock)).2 hin

/-- an unlock ends the section of the last lock -/
theorem Gathered.snoc_unlock {init : List LockPair} {last : LockPair} (h : Gathered var done (init ++ [last]))
    (hpw : (done ++ [l]).Pairwise Visited) (hunlock : isUnlockOf var l = true) :
    Gathered var (done ++ [l]) (init ++ [{ last with unlock := some l }]) := by
  obtain ⟨hdone, -, hbefore⟩ := List.pairwise_append.1 hpw
  have hno : isLockOf var l = false := by
    simp only [isUnlockOf, Bool.and_eq_true, beq_iff_eq] at hunlock
    simp [isLockOf, hunlock.1]
  have hlocks := h.locks
  rw [List.map_append, List.map_singleton] at hlocks
  have hsorted := hdone.filter (isLockOf var)
  rw [← hlocks] at hsorted
  have hlast : ∀ pr ∈ init, Visited pr.lock last.lock := fun pr hpr =>
    (List.pairwise_append.1 hsorted).2.2 _ (List.mem_map_of_mem hpr) _ (by simp)
  obtain ⟨hlastd, hlastop⟩ := h.mem_lock (by simp : last ∈ init ++ [last])
  have hmax : ∀ x ∈ done, isLockOf var x = true → ¬Visited last.lock x := by
    intro x hx hlock hvis
    have hmem : x ∈ done.filter (isLockOf var) := List.mem_filter.2 ⟨hx, hlock⟩
    rw [← hlocks] at hmem
    rcases List.mem_append.1 hmem with hmem | hmem
    · obtain ⟨pr, hpr, rfl⟩ := List.mem_map.1 hmem
      exact (hvis.trans (hlast pr hpr)).irrefl
    · rw [List.mem_singleton.1 hmem] at hvis
      exact hvis.irrefl
  refine ⟨?_, fun pr hpr u hu => ?_, fun pr hpr u' hu' => ?_⟩
  · rw [List.filter_append, ← hlocks]
    simp [hno]
  · rcases List.mem_append.1 hpr with hpr | hpr
    · have hin := h.ended pr (by simp [hpr]) u hu
      refine (within_snoc hpw fun hul => ?_).2 hin
      have hvis := hbefore u hin.mem l (by simp)
      rw [hul] at hvis
      exact hvis.irrefl
    · rw [List.mem_singleton.1 hpr] at hu ⊢
      obtain rfl : l = u := Option.some.inj hu
      refine ⟨by simp, hunlock, hbefore _ hlastd l (by simp), fun x hx hlock hvis => ?_⟩
      rcases List.mem_append.1 hx with hx | hx
      · exact absurd hvis (hmax x hx hlock)
      · rw [List.mem_singleton.1 hx, hno] at hlock
        exact absurd hlock (by simp)
  · rcases List.mem_append.1 hpr with hpr | hpr
    · by_cases hul : u' = l
      · -- the last lock is in between
        have hvis := hu'.next last.lock (by simp [hlastd]) hlastop (hlast pr hpr)
        rw [hul] at hvis
        exact absurd (hvis.trans (hbefore _ hlastd l (by simp))) Visited.irrefl
      · exact h.last pr (by simp [hpr]) u' ((within_snoc hpw hul).1 hu')
    · rw [List.mem_singleton.1 hpr]
      refine ⟨l, rfl, ?_⟩
      rcases List.mem_append.1 hu'.mem with hmem | hmem
      · exact Or.inr (hbefore u' hmem l (by simp))
      · exact Or.inl (List.mem_singleton.1 hmem).symm

theorem Gathered.step (h : Gathered var done prs) (hpw : (done ++ [l]).Pairwise Visited)
    (hadd : addLocking var prs l = some prs') : Gathered var (done ++ [l]) prs' := by
  have hsame : isLockOf var l = false → isUnlockOf var l = false → Gathered var (done ++ [l]) prs := by
    intro hnl hnu
    refine ⟨?_, (h.snoc hpw hnu).1, (h.snoc hpw hnu).2⟩
    rw [h.locks, List.filter_append, List.filter_cons_of_neg (by simp [hnl])]
    simp
  unfold addLocking at hadd
  by_cases hvar : l.symbol.var = var
  swap
  · rw [if_pos hvar, Option.some.injEq] at hadd
    exact hadd ▸ hsame (by simp [isLockOf, hvar]) (by simp [isUnlockOf, hvar])
  rw [if_neg (not_not.2 hvar)] at hadd
  cases hop : l.symbol.operation with
  | lock =>
    rw [hop] at hadd
    obtain rfl := Option.some.inj hadd
    have hlock : isLockOf var l = true := by simp [isLockOf, hop, hvar]
    obtain ⟨hended, hlast⟩ := h.snoc hpw (by simp [isUnlockOf, hop])
    refine ⟨?_, fun pr hpr u hu => ?_, fun pr hpr u' hu' => ?_⟩
    · rw [List.map_append, h.locks, List.filter_append, List.filter_cons_of_pos hlock]
      simp
    · rcases List.mem_append.1 hpr with hpr | hpr
      · exact hended pr hpr u hu
      · rw [List.mem_singleton.1 hpr] at hu
        simp at hu
    · rcases List.mem_append.1 hpr with hpr | hpr
      · exact hlast pr hpr u' hu'
      · -- nothing is visited after the new lock
        rw [List.mem_singleton.1 hpr] at hu'
        have hvis : Visited l u' := hu'.after
        rcases List.mem_append.1 hu'.mem with hmem | hmem
        · exact absurd (hvis.trans ((List.pairwise_append.1 hpw).2.2 u' hmem l (by simp))) Visited.irrefl
        · rw [List.mem_singleton.1 hmem] at hvis
          exact absurd hvis Visited.irrefl
  | unlock =>
    rw [hop] at hadd
    obtain ⟨init, last, rfl, rfl⟩ := setUnlock_eq_some hadd
    exact h.snoc_unlock hpw (by simp [isUnlockOf, hop, hvar])
  | _ =>
    rw [hop] at hadd
    obtain rfl := Option.some.inj hadd
    exact hsame (by simp [isLockOf, hop]) (by simp [isUnlockOf, hop])

/-- the locks that are visited before a location are those of the list -/
theorem Gathered.exists_before {rest : List TraceLocation} (h : Gathered var done prs)
    (hpw : ((done ++ [l]) ++ rest).Pairwise Visited) :
    (∃ x ∈ (done ++ [l]) ++ rest, isLockOf var x = true ∧ Visited x l) ↔ prs ≠ [] := by
  obtain ⟨hpw', -, hrest⟩ := List.pairwise_append.1 hpw
  have hdone := (List.pairwise_append.1 hpw').2.2
  constructor
  · rintro ⟨x, hx, hlock, hvis⟩ rfl
    have hxd : x ∈ done := by
      simp only [List.mem_append, List.mem_singleton] at hx
      rcases hx with (hx | hx) | hx
      · exact hx
      · rw [hx] at hvis
        exact absurd hvis Visited.irrefl
      · exact absurd (hvis.trans (hrest l (by simp) x hx)) Visited.irrefl
    have hmem : x ∈ done.filter (isLockOf var) := List.mem_filter.2 ⟨hxd, hlock⟩
    rw [← h.locks] at hmem
    simp at hmem
  · intro hne
    obtain ⟨pr, hpr⟩ := List.exists_mem_of_ne_nil prs hne
    obtain ⟨hmem, hlock⟩ := h.mem_lock hpr
    exact ⟨pr.lock, by simp [hmem], hlock, hdone _ hmem l (by simp)⟩

end

/-- the loops from some point on -/
theorem Gathered.run {rest done : List TraceLocation} {prs : List LockPair} (h : Gathered var done prs)
    (hpw : (done ++ rest).Pairwise Visited) :
    (∀ prs', rest.foldlM (addLocking var) prs = some prs' → Gathered var (done ++ rest) prs') ∧
      ((rest.foldlM (addLocking var) prs).isSome = true ↔
        ∀ u ∈ rest, isUnlockOf var u = true → ∃ x ∈ done ++ rest, isLockOf var x = true ∧ Visited x u) := by
  induction rest generalizing done prs with
  | nil =>
    refine ⟨fun prs' hprs => ?_, by simp⟩
    obtain rfl := Option.some.inj hprs
    simpa using h
  | cons l rest ih =>
    have hsnoc : done ++ l :: rest = (done ++ [l]) ++ rest := by simp
    rw [hsnoc] at hpw ⊢
    have hpw' := (List.pairwise_append.1 hpw).1
    have hbefore := h.exists_before hpw
    rw [List.foldlM_cons]
    cases hadd : addLocking var prs l with
    | none =>
      have hno := @addLocking_isSome var prs l
      rw [hadd] at hno
      simp only [Option.isSome_none, Bool.false_eq_true, false_iff, Classical.not_imp] at hno
      refine ⟨fun prs' hprs => by simp at hprs, ?_⟩
      simp only [Option.bind_eq_bind, Option.bind_none, Option.isSome_none, Bool.false_eq_true, false_iff]
      exact fun hall => hno.2 (hbefore.1 (hall l (by simp) hno.1))
    | some prs1 =>
      obtain ⟨hgathered, hsome⟩ := ih (h.step hpw' hadd) hpw
      have hne := addLocking_isSome.1 (by rw [hadd]; rfl)
      refine ⟨hgathered, ?_⟩
      rw [Option.bind_eq_bind, Option.bind_some, hsome]
      constructor
      · intro hall u hu hunlock
        rcases List.mem_cons.1 hu with rfl | hu
        · exact hbefore.2 (hne hunlock)
        · exact hall u hu hunlock
      · exact fun hall u hu => hall u (by simp [hu])

/-- **The pairs of a variable.** -/
theorem lockings_gathered {prs : List LockPair} (h : lockings threads w var = some prs) :
    Gathered var (traversal threads w) prs := by
  have h0 : Gathered var [] [] := ⟨rfl, by simp, by simp⟩
  simpa using (h0.run (by simpa using traversal_visited threads w)).1 prs h

/-- an empty list is read iff an unlock is visited before all locks of its variable -/
theorem lockings_isSome (hw : OfThreads threads w) : (lockings threads w var).isSome = true ↔
    ∀ u ∈ splitTrace w, isUnlockOf var u = true → ∃ x ∈ splitTrace w, isLockOf var x = true ∧ Visited x u := by
  have h0 : Gathered var [] [] := ⟨rfl, by simp, by simp⟩
  rw [lockings, (h0.run (by simpa using traversal_visited threads w)).2]
  simp [mem_traversal hw]

/-! ## The pairs of alternating traces -/

/-- every lock has its pair, and an unlock in it comes later in the same thread -/
structure Paired (w : List Symbol) (var : ℕ) (done : List TraceLocation) (prs : List LockPair) : Prop where
  locks : prs.map LockPair.lock = done.filter (isLockOf var)
  unlocks : ∀ pr ∈ prs, ∀ u, pr.unlock = some u → u ∈ splitTrace w ∧ u.symbol.operation = .unlock ∧ u.symbol.var = var ∧
    u.threadId = pr.lock.threadId ∧ pr.lock.position < u.position

/-- an unlock belongs to a lock of its own thread, if that thread locks before it unlocks -/
theorem Within.own_thread (hw : OfThreads threads w) {lock u : TraceLocation}
    (h : Within var (traversal threads w) lock u) (hlock : lock ∈ splitTrace w)
    (hown : ∃ x ∈ splitTrace w, isLockOf var x = true ∧ x.threadId = u.threadId ∧ x.position < u.position) :
    u.threadId = lock.threadId ∧ lock.position < u.position := by
  obtain ⟨x, hx, hop, ht, hpos⟩ := hown
  have hafter := h.after
  -- the lock is the last one before the unlock
  have hlast : x = lock ∨ Visited x lock := by
    rcases visited_total hx hlock with hvis | heq | hvis
    · exact Or.inr hvis
    · exact Or.inl heq
    · have hux := h.next x ((mem_traversal hw).2 hx) hop hvis
      unfold Visited at hux
      omega
  unfold Visited at hlast hafter
  rcases hlast with rfl | hlast
  · exact ⟨ht.symm, hpos⟩
  · omega

/-- the unlocks are entered at locks of their own threads, if every thread locks before it unlocks -/
theorem Gathered.paired (hw : OfThreads threads w) {prs : List LockPair}
    (h : Gathered var (traversal threads w) prs)
    (hown : ∀ u ∈ splitTrace w, isUnlockOf var u = true →
      ∃ x ∈ splitTrace w, isLockOf var x = true ∧ x.threadId = u.threadId ∧ x.position < u.position) :
    Paired w var (traversal threads w) prs := by
  refine ⟨h.locks, fun pr hpr u hu => ?_⟩
  have hin := h.ended pr hpr u hu
  have hus := (mem_traversal hw).1 hin.mem
  have hop := hin.unlock
  simp only [isUnlockOf, Bool.and_eq_true, beq_iff_eq] at hop
  exact ⟨hus, hop.1, hop.2, hin.own_thread hw ((mem_traversal hw).1 (h.mem_lock hpr).1) (hown u hus hin.unlock)⟩

/-- **The pairs of a variable in an alternating trace.** -/
theorem lockings_paired (hw : OfThreads threads w) (halt : Alternates w) (var : ℕ) :
    ∃ prs, lockings threads w var = some prs ∧ Paired w var (traversal threads w) prs := by
  have hown : ∀ u ∈ splitTrace w, isUnlockOf var u = true →
      ∃ x ∈ splitTrace w, isLockOf var x = true ∧ x.threadId = u.threadId ∧ x.position < u.position := by
    intro u hu hunlock
    simp only [isUnlockOf, Bool.and_eq_true, beq_iff_eq] at hunlock
    obtain ⟨x, hx, hop, hvar, ht, hpos⟩ := halt.exists_lock hu hunlock.1
    exact ⟨x, hx, by simp [isLockOf, hop, hvar, hunlock.2], ht, hpos⟩
  obtain ⟨prs, hprs⟩ := Option.isSome_iff_exists.1 ((lockings_isSome hw).2 fun u hu hunlock => by
    obtain ⟨x, hx, hlock, ht, hpos⟩ := hown u hu hunlock
    exact ⟨x, hx, hlock, Or.inr ⟨ht, hpos⟩⟩)
  exact ⟨prs, hprs, (lockings_gathered hprs).paired hw hown⟩

theorem mapM_isSome {α β : Type*} {f : α → Option β} {l : List α} (h : ∀ a ∈ l, (f a).isSome = true) :
    (l.mapM f).isSome = true := by
  induction l with
  | nil => rfl
  | cons a l ih =>
    obtain ⟨b, hb⟩ := Option.isSome_iff_exists.1 (h a List.mem_cons_self)
    obtain ⟨rest, hrest⟩ := Option.isSome_iff_exists.1 (ih fun x hx => h x (List.mem_cons_of_mem _ hx))
    simp [List.mapM_cons, hb, hrest]

/-- `prepare_trace` reads no empty list -/
theorem locks_isSome (hw : OfThreads threads w) (halt : Alternates w) (ids : Identifiers) :
    (locks ids threads w).isSome = true := by
  rw [locks, Option.isSome_map]
  apply mapM_isSome
  intro v _
  obtain ⟨prs, hprs, -⟩ := lockings_paired hw halt v
  rw [hprs]
  rfl

end Liss.Synthesis
