/-
The two encodings of the locks that were synthesised before: the constraint `synth_locks` on the orderings of a trace
and the conflict monitor of the automaton.

- `violates_of_lockExpr`: where the constraint of a lock fails, the lock is violated;
- `lockExpr_of_violates`: where a lock is violated, its constraint fails, unless a symbol of the trace occurs twice in a
  list: `find_lock_locs` does not start a match at a symbol that was matched before;
- `encodings_agree`: the encodings agree when no symbol of the trace occurs twice in a list and the conflicts that begin
  in it have numbers that fit; for a lock with two lists they agree on all traces only if no list has a symbol twice;
- `encodings_differ`: they differ on the list `a b a c` and the trace `a y c`.
-/
import Liss.Abstraction.Restricted
import Liss.Synthesis.Matching
import Liss.Synthesis.Orderings

namespace Liss.Synthesis

open ConcurrentAutomaton

variable {w : List Symbol} {a : Assignment} {lock : LockLists}

/-! ## The constraint of one lock -/

/-- the symbols of a thread -/
def threadSymbols (w : List Symbol) (t : ℕ) : List Symbol := (threadedTrace w t).map TraceLocation.symbol

theorem mem_findLockLocs {it : LockList} {l : TraceLocation × TraceLocation} :
    l ∈ findLockLocs w it ↔ ∃ ie ∈ findLockMatches w it,
      (threadedTrace w ((it.head?.map Symbol.threadId).getD 0))[ie.1]? = some l.1 ∧
      (threadedTrace w ((it.head?.map Symbol.threadId).getD 0))[ie.2]? = some l.2 := by
  simp only [findLockLocs, List.mem_filterMap]
  refine exists_congr fun ie => and_congr_right fun _ => ?_
  obtain ⟨l1, l2⟩ := l
  cases (threadedTrace w ((it.head?.map Symbol.threadId).getD 0))[ie.1]? <;>
    cases (threadedTrace w ((it.head?.map Symbol.threadId).getD 0))[ie.2]? <;> simp

theorem findLockMatches_eq {it : LockList} {u v : Symbol} (h : [u, v] <:+: it) :
    findLockMatches w it =
      scanList (threadSymbols w ((it.head?.map Symbol.threadId).getD 0)) it (fun _ => false) [] := by
  match it, h with
  | [], h => simp at h
  | [x], h => simpa using h.length_le
  | x :: y :: it, _ => rfl

/-- a match, with its locations -/
theorem findLockMatches_sound {it : LockList} {ie : ℕ × ℕ} (h : ie ∈ findLockMatches w it) :
    ∃ d suffix, 0 < d ∧ ie.2 = ie.1 + d ∧ suffix <:+ it ∧
      Matches (threadSymbols w ((it.head?.map Symbol.threadId).getD 0)) suffix ie.1 d := by
  match it, h with
  | [], h => simp [findLockMatches] at h
  | [x], h => simp [findLockMatches] at h
  | x :: y :: it, h =>
    rcases scanList_sound h with h | h
    · simp at h
    · exact h

theorem mem_findLocs {sym : Symbol} {l : TraceLocation} :
    l ∈ findLocs w sym ↔ l ∈ splitTrace w ∧ l.symbol.equals sym = true := by
  simp only [findLocs, List.mem_filter, mem_threadedTrace]
  constructor
  · rintro ⟨⟨h, -⟩, heq⟩
    exact ⟨h, heq⟩
  · rintro ⟨h, heq⟩
    exact ⟨⟨h, Symbol.threadId_eq_of_equals heq⟩, heq⟩

/-- the constraint fails when a location of another list is inside a match -/
theorem lockExpr_eq_false : lockExpr w lock a = false ↔
    ∃ it ∈ lock, ∃ it2 ∈ lock, frontThread it ≠ frontThread it2 ∧ ∃ l ∈ findLockLocs w it, ∃ l2 ∈ splitTrace w,
      l2.symbol.isIn it2 = true ∧ a l.1.position ≤ a l2.position ∧ a l2.position ≤ a l.2.position := by
  simp only [lockExpr, List.all_eq_false, Bool.or_eq_true, not_or, beq_iff_eq, Bool.not_eq_true,
    decide_eq_false_iff_not, not_lt]
  constructor
  · rintro ⟨it, hit, it2, hit2, hne, sym, hsym, l, hl, l2, hl2, h1, h2⟩
    obtain ⟨hmem, heq⟩ := mem_findLocs.1 hl2
    exact ⟨it, hit, it2, hit2, hne, l, hl, l2, hmem, Symbol.isIn_iff.2 ⟨sym, hsym, Symbol.equals_symm heq⟩, h1, h2⟩
  · rintro ⟨it, hit, it2, hit2, hne, l, hl, l2, hl2, hin, h1, h2⟩
    obtain ⟨sym, hsym, heq⟩ := Symbol.isIn_iff.1 hin
    exact ⟨it, hit, it2, hit2, hne, sym, hsym, l, hl, l2, mem_findLocs.2 ⟨hl2, Symbol.equals_symm heq⟩, h1, h2⟩

/-- **Where the constraint of a lock fails, the lock is violated.** -/
theorem violates_of_lockExpr (h : KeepsThreadOrder w a) (hst : SingleThreaded lock) (hne : NoEpsilon lock)
    (hf : lockExpr w lock a = false) : ViolatesLock lock (word w a) := by
  obtain ⟨it, hit, it2, hit2, hfront, l, hl, l2, hl2, hin, h1, h2⟩ := lockExpr_eq_false.1 hf
  obtain ⟨ie, hie, hstart, hfin⟩ := mem_findLockLocs.1 hl
  obtain ⟨d, suffix, hd, he, hsuf, hm⟩ := findLockMatches_sound hie
  set t := (it.head?.map Symbol.threadId).getD 0 with ht
  -- the thread of the list, and that of the location in between
  have hfit : frontThread it = some t := by
    obtain ⟨x, it', rfl⟩ := List.exists_cons_of_ne_nil (hst it hit).1
    rfl
  have hl2t : l2.threadId ≠ t := by
    obtain ⟨sym, hsym, heq⟩ := Symbol.isIn_iff.1 hin
    intro h'
    rw [hfit, threadId_of_front (hst it2 hit2).2 hsym, Symbol.threadId_eq_of_equals heq] at hfront
    exact hfront (by rw [← h']; rfl)
  have hloc : ∀ k ≤ d, ∃ loc, (threadedTrace w t)[ie.1 + k]? = some loc ∧ loc ∈ splitTrace w ∧ loc.threadId = t := by
    intro k hk
    obtain ⟨x, y, hx, -, -⟩ := hm k hk
    obtain ⟨loc, hloc, -⟩ : ∃ loc, (threadedTrace w t)[ie.1 + k]? = some loc ∧ loc.symbol = x := by
      simpa [threadSymbols] using hx
    exact ⟨loc, hloc, mem_threadedTrace.1 (List.mem_of_getElem? hloc)⟩
  have hval : ∀ k ≤ d, ∀ loc, (threadedTrace w t)[ie.1 + k]? = some loc → a loc.position ≠ a l2.position := by
    intro k hk loc hloc' heq
    obtain ⟨loc', h', hmem, hth⟩ := hloc k hk
    obtain rfl : loc' = loc := by simpa [h'] using hloc'
    exact hl2t (by rw [← h.injective _ hmem _ hl2 heq]; exact hth)
  let f : ℕ → ℤ := fun k => ((threadedTrace w t)[ie.1 + k]?.map fun loc => a loc.position).getD 0
  have hf' : ∀ k loc, (threadedTrace w t)[ie.1 + k]? = some loc → f k = a loc.position := by
    intro k loc hk
    simp [f, hk]
  rw [he] at hfin
  obtain ⟨k, hk, hlt, hgt⟩ := exists_step f (x := a l2.position) (d := d)
    (by rw [hf' 0 l.1 hstart]; exact lt_of_le_of_ne h1 (hval 0 (by omega) _ hstart))
    (by rw [hf' d l.2 hfin]; exact lt_of_le_of_ne h2 (hval d (by omega) _ hfin).symm)
    (fun k hk => by
      obtain ⟨loc, h', -⟩ := hloc k hk
      rw [hf' k loc h']
      exact hval k hk loc h')
  obtain ⟨loc, h', -⟩ := hloc k (by omega)
  obtain ⟨loc', h'', -⟩ := hloc (k + 1) (by omega)
  rw [hf' k loc h'] at hlt
  rw [hf' (k + 1) loc' h''] at hgt
  obtain ⟨x, u, hx, hu, hxu⟩ := hm k (by omega)
  obtain ⟨x', v, hx', hv, hxv⟩ := hm (k + 1) (by omega)
  obtain rfl : loc.symbol = x := by simpa [threadSymbols, h'] using hx
  obtain rfl : loc'.symbol = x' := by simpa [threadSymbols, h''] using hx'
  exact (violatesLock_word h hne).2 ⟨t, loc, loc', pair_infix_iff.2 ⟨_, h', h''⟩, it, hit, u, v,
    (pair_infix_iff.2 ⟨k, hu, hv⟩).trans hsuf.isInfix, Symbol.equals_symm hxu, Symbol.equals_symm hxv, l2, hl2, hlt,
    hgt, it2, hit2, hfront, hin⟩

/-- no symbol of the trace occurs twice in a list -/
def OnceIn (w : List Symbol) (lock : LockLists) : Prop := ∀ it ∈ lock, Once w it

/-- **Where a lock is violated, its constraint fails**, when no symbol of the trace occurs twice in a list. -/
theorem lockExpr_of_violates (h : KeepsThreadOrder w a) (hst : SingleThreaded lock) (hne : NoEpsilon lock)
    (honce : OnceIn w lock) (hv : ViolatesLock lock (word w a)) : lockExpr w lock a = false := by
  obtain ⟨t, l, l', hll, it, hit, u, v, huv, hu, hv', s, hs, hlt, hgt, it2, hit2, hfront, hin⟩ :=
    (violatesLock_word h hne).1 hv
  have hlt' : l.threadId = t := (mem_threadedTrace.1 (hll.subset (by simp))).2
  have ht : (it.head?.map Symbol.threadId).getD 0 = t := by
    have := threadId_of_front (hst it hit).2 (huv.subset (by simp : u ∈ [u, v]))
    rw [Symbol.threadId_eq_of_equals hu] at this
    rw [frontThread] at this
    rw [this]
    exact hlt'
  obtain ⟨k, hk, hk'⟩ := pair_infix_iff.1 hll
  obtain ⟨q, hq, hq'⟩ := pair_infix_iff.1 huv
  have honce' : Once (threadSymbols w t) it := by
    intro x hx
    obtain ⟨loc, hloc, rfl⟩ := List.mem_map.1 hx
    exact honce it hit _ (List.mem_of_getElem? (mem_splitTrace.1 (mem_threadedTrace.1 hloc).1))
  have hsym : (threadSymbols w t)[k]? = some l.symbol := by simp [threadSymbols, hk]
  have hsym' : (threadSymbols w t)[k + 1]? = some l'.symbol := by simp [threadSymbols, hk']
  obtain ⟨i, e, hik, hke, hmem⟩ :=
    scanList_complete honce' hsym hsym' hq hq' (Symbol.equals_symm hu) (Symbol.equals_symm hv')
  have hmem' : (i, e) ∈ findLockMatches w it := by rw [findLockMatches_eq huv, ht]; exact hmem
  obtain ⟨d, suffix, hd, he, -, hm⟩ := findLockMatches_sound hmem'
  rw [ht] at hm
  obtain ⟨x, -, hx, -, -⟩ := hm 0 (by omega)
  obtain ⟨x', -, hx', -, -⟩ := hm d (by omega)
  obtain ⟨start, hstart, -⟩ : ∃ loc, (threadedTrace w t)[i]? = some loc ∧ loc.symbol = x := by
    simpa [threadSymbols] using hx
  obtain ⟨fin, hfin, -⟩ : ∃ loc, (threadedTrace w t)[i + d]? = some loc ∧ loc.symbol = x' := by
    simpa [threadSymbols] using hx'
  -- the values grow along the thread, so the match is around the two steps
  have hmono : ∀ {m n : ℕ} {x y : TraceLocation}, (threadedTrace w t)[m]? = some x → (threadedTrace w t)[n]? = some y →
      m ≤ n → a x.position ≤ a y.position := by
    intro m n x y hm hn hmn
    obtain ⟨hm', rfl⟩ := List.getElem?_eq_some_iff.1 hm
    obtain ⟨hn', rfl⟩ := List.getElem?_eq_some_iff.1 hn
    rcases hmn.lt_or_eq with hlt | rfl
    · exact (List.pairwise_iff_getElem.1 (h.threaded t) m n hm' hn' hlt).le
    · exact le_refl _
  simp only at he
  refine lockExpr_eq_false.2 ⟨it, hit, it2, hit2, hfront, (start, fin), ?_, s, hs, hin,
    (hmono hstart hk hik).trans hlt.le, hgt.le.trans (hmono hk' hfin (by omega))⟩
  rw [mem_findLockLocs, ht]
  exact ⟨(i, e), hmem', hstart, by rw [he]; exact hfin⟩

/-! ## The two encodings -/

/-- the conflict monitor for the clauses does not reject the word -/
def Accepted (p : Program) (deadlock : Bool) (clauses : LockSymbols) (w : List Symbol) : Prop :=
  ∃ m, (restricted p deadlock [clauses]).monitorRun (restricted p deadlock [clauses]).startMonitor w = .ok (some m)

/-- lists of symbols that are neither tags nor epsilon -/
def EventLists (clauses : LockSymbols) : Prop := ∀ cl ∈ clauses, ∀ lock ∈ cl, ∀ it ∈ lock, ∀ s ∈ it, isEvent s = true

theorem events_word (hw : ∀ s ∈ w, isEvent s = true) : events (word w a) = word w a :=
  List.filter_eq_self.2 fun s hs => hw s (mem_word.1 hs)

/-- the conflicts whose past symbol occurs in the word have numbers up to `max_payload` -/
def NumbersFit (p : Program) (deadlock : Bool) (clauses : LockSymbols) (w : List Symbol) : Prop :=
  ∀ e ∈ (restricted p deadlock [clauses]).conflictMap, (∃ s ∈ w, e.1.equals s = true) → e.2 ≤ maxPayload

/-- which holds for every word where all conflicts have such numbers -/
theorem numbersFit_of_length (p : Program) (deadlock : Bool) {clauses : LockSymbols}
    (hsize : (restricted p deadlock [clauses]).conflicts.length ≤ maxPayload + 1) (w : List Symbol) :
    NumbersFit p deadlock clauses w := by
  obtain ⟨⟨entries, hi⟩, -, -⟩ := installed_addForbiddenTraces p true deadlock [clauses]
  intro e he _
  rw [restricted, hi.conflicts, List.length_map] at hsize
  rw [restricted, hi.conflictMap] at he
  obtain ⟨i, hlt, rfl⟩ := List.mem_mapIdx.1 he
  show i ≤ maxPayload
  omega

theorem accepted_iff (p : Program) (deadlock : Bool) {clauses : LockSymbols} (hwf : WellFormedClauses clauses)
    (hfit : NumbersFit p deadlock clauses w) (hw : ∀ s ∈ w, isEvent s = true) :
    Accepted p deadlock clauses (word w a) ↔ ∀ cl ∈ clauses, cl ≠ [] → ¬ViolatesClause cl (word w a) := by
  obtain ⟨⟨entries, hi⟩, hpad, -⟩ := installed_addForbiddenTraces p true deadlock [clauses]
  have hhandled : Handled entries (word w a) := by
    intro n e hn ⟨s, hs, heq⟩
    refine hfit (e.1, n) ?_ ⟨s, mem_word.1 hs, heq⟩
    rw [restricted, hi.conflictMap]
    obtain ⟨hlt, rfl⟩ := List.getElem?_eq_some_iff.1 hn
    exact List.mem_mapIdx.2 ⟨n, hlt, rfl⟩
  rw [List.flatten_singleton] at hi
  have hiff := monitorRun_iff hi hpad hwf hhandled
  rwa [events_word hw] at hiff

theorem synthLocks_iff {clauses : LockSymbols} :
    synthLocks w clauses a = true ↔ ∀ cl ∈ clauses, ¬∀ lock ∈ cl, lockExpr w lock a = false := by
  simp [synthLocks]

/-- what the encodings agree on, for one trace and ordering -/
def Agree (p : Program) (deadlock : Bool) (clauses : LockSymbols) (w : List Symbol) (a : Assignment) : Prop :=
  synthLocks w clauses a = true ↔ Accepted p deadlock clauses (word w a)

theorem agree_of_once (p : Program) (deadlock : Bool) {clauses : LockSymbols} (hwf : WellFormedClauses clauses)
    (hev : EventLists clauses) (hne : ∀ cl ∈ clauses, cl ≠ [])
    (hfit : NumbersFit p deadlock clauses w) (hw : ∀ s ∈ w, isEvent s = true) (h : KeepsThreadOrder w a)
    (honce : ∀ cl ∈ clauses, ∀ lock ∈ cl, OnceIn w lock) : Agree p deadlock clauses w a := by
  rw [Agree, synthLocks_iff, accepted_iff p deadlock hwf hfit hw]
  refine forall_congr' fun cl => forall_congr' fun hcl => ?_
  have hlock : ∀ lock ∈ cl, lockExpr w lock a = false ↔ ViolatesLock lock (word w a) := fun lock hl =>
    ⟨violates_of_lockExpr h (hwf cl hcl lock hl) (noEpsilon_of_event (hev cl hcl lock hl)),
      lockExpr_of_violates h (hwf cl hcl lock hl) (noEpsilon_of_event (hev cl hcl lock hl)) (honce cl hcl lock hl)⟩
  simp only [hne cl hcl, ne_eq, not_false_iff, true_implies, ViolatesClause]
  exact not_congr (forall_congr' fun lock => forall_congr' fun hl => hlock lock hl)

/-! ## A repeated symbol -/

/-- where only the last symbol of the thread is unused nothing more is found -/
theorem scanMatches_used {thread : List Symbol} {itsy : Symbol} {rest : List Symbol} {fuel i : ℕ} {used : ℕ → Bool}
    {result : List (ℕ × ℕ)} (hu : ∀ k, k + 1 < thread.length → used k = true) :
    (scanMatches thread itsy rest fuel i used result).2 = result ∧
      ∀ k, k + 1 < thread.length → (scanMatches thread itsy rest fuel i used result).1 k = true := by
  induction fuel generalizing i used with
  | zero => exact ⟨rfl, hu⟩
  | succ fuel ih =>
    rw [scanMatches]
    split
    · exact ⟨rfl, hu⟩
    · rename_i s hs
      split_ifs with hc
      · simp only [Bool.and_eq_true, Bool.not_eq_true'] at hc
        have hlast : thread.length ≤ i + 1 := by
          by_contra hno
          have := hu i (by omega)
          simp [hc.2] at this
        have hk : matchLength (thread.drop (i + 1)) rest = 0 := by
          rw [List.drop_eq_nil_of_le hlast]
          cases rest <;> rfl
        simp only [hk, if_true]
        exact ih fun k hk' => by simp [markUsed, hu k hk']
      · exact ih hu

theorem scanList_used {thread list : List Symbol} {used : ℕ → Bool} {result : List (ℕ × ℕ)}
    (hu : ∀ k, k + 1 < thread.length → used k = true) : scanList thread list used result = result := by
  induction list generalizing used with
  | nil => rfl
  | cons itsy rest ih =>
    obtain ⟨h1, h2⟩ : (scanMatches thread itsy rest thread.length 0 used result).2 = result ∧
      ∀ k, k + 1 < thread.length →
        (scanMatches thread itsy rest thread.length 0 used result).1 k = true := scanMatches_used hu
    rw [scanList, h1]
    exact ih h2

theorem matchLength_take {ys : List Symbol} {z : Symbol} {j : ℕ} (hj : j ≤ ys.length)
    (hz : ∀ y, ys[j]? = some y → z.equals y = false) : matchLength (ys.take j ++ [z]) ys = j := by
  induction j generalizing ys with
  | zero =>
    cases ys with
    | nil => rfl
    | cons y ys => simp [matchLength, hz y]
  | succ j ih =>
    cases ys with
    | nil => simp at hj
    | cons y ys =>
      simp only [List.take_succ_cons, List.cons_append, matchLength, Symbol.equals_refl, if_true]
      rw [ih (by simpa using hj) (by simpa using hz)]

/-- on the first `j + 1` symbols of a list and another one only the one match of these is found -/
theorem scanList_take {list : List Symbol} {z : Symbol} {j : ℕ} (hj : j < list.length) (hpos : 0 < j)
    (hz : ∀ y, list[j + 1]? = some y → z.equals y = false) :
    scanList (list.take (j + 1) ++ [z]) list (fun _ => false) [] = [(0, j)] := by
  cases list with
  | nil => simp at hj
  | cons itsy rest =>
    have hk : matchLength (rest.take j ++ [z]) rest = j := matchLength_take (by simpa using hj) (by simpa using hz)
    have hlen : (itsy :: (rest.take j ++ [z])).length = j + 1 + 1 := by
      simp only [List.length_cons, List.length_append, List.length_take, List.length_nil] at hj ⊢
      omega
    have hscan : scanMatches (itsy :: (rest.take j ++ [z])) itsy rest (itsy :: (rest.take j ++ [z])).length 0
        (fun _ => false) [] = scanMatches (itsy :: (rest.take j ++ [z])) itsy rest (j + 1) (j + 1)
        (markUsed (fun _ => false) 0 j) [(0, j)] := by
      rw [hlen, scanMatches]
      simp [hk, hpos.ne']
    have hused : ∀ k, k + 1 < (itsy :: (rest.take j ++ [z])).length → markUsed (fun _ => false) 0 j k = true := by
      intro k hk'
      rw [hlen] at hk'
      simp only [markUsed, Bool.false_or, Nat.zero_le, decide_true, Bool.true_and, decide_eq_true_eq]
      omega
    obtain ⟨h1, h2⟩ : (scanMatches (itsy :: (rest.take j ++ [z])) itsy rest (j + 1) (j + 1)
        (markUsed (fun _ => false) 0 j) [(0, j)]).2 = [(0, j)] ∧ _ := scanMatches_used hused
    simp only [List.take_succ_cons, List.cons_append, scanList, hscan, h1]
    exact scanList_used h2

/-- a symbol that occurs twice, the second time as far back as possible -/
theorem exists_repeat {list : List Symbol} (h : ¬Distinct list) :
    ∃ i j x y z, i < j ∧ list[i]? = some x ∧ list[j]? = some y ∧ x.equals y = true ∧ list[i + 1]? = some z ∧
      ∀ y', list[j + 1]? = some y' → z.equals y' = false := by
  let Twice : ℕ → Prop := fun j => ∃ i x y, i < j ∧ list[i]? = some x ∧ list[j]? = some y ∧ x.equals y = true
  obtain ⟨j, ⟨i, x, y, hij, hx, hy, hxy⟩, hlast⟩ : ∃ j, Twice j ∧ ¬Twice (j + 1) := by
    by_contra hno
    push Not at hno
    have h0 : ∃ j, Twice j := by
      by_contra hnone
      refine h (List.pairwise_iff_getElem.2 fun i j hi hj hij => ?_)
      by_contra heq
      exact hnone ⟨j, i, _, _, hij, List.getElem?_eq_getElem hi, List.getElem?_eq_getElem hj, by simpa using heq⟩
    obtain ⟨j0, hj0⟩ := h0
    have hall : ∀ k, Twice (j0 + k) := fun k => Nat.rec hj0 (fun k ih => hno _ ih) k
    obtain ⟨i, x, y, -, -, hy, -⟩ := hall list.length
    have := (List.getElem?_eq_some_iff.1 hy).1
    omega
  have hj := (List.getElem?_eq_some_iff.1 hy).1
  refine ⟨i, j, x, y, list[i + 1], hij, hx, hy, hxy, List.getElem?_eq_getElem _, fun y' hy' => ?_⟩
  by_contra heq
  exact hlast ⟨i + 1, _, y', by omega, List.getElem?_eq_getElem _, hy', by simpa using heq⟩

theorem threadSymbols_eq (w : List Symbol) (t : ℕ) : threadSymbols w t = w.filter fun s => s.threadId = t := by
  conv_rhs => rw [← map_symbol_splitTrace w]
  rw [List.filter_map]
  rfl

/-- locations at the start of a trace that belong to one thread -/
theorem threadedTrace_append {u v : List Symbol} {t : ℕ} (hu : ∀ s ∈ u, s.threadId = t) {k : ℕ} (hk : k < u.length)
    {l : TraceLocation} (hl : (threadedTrace (u ++ v) t)[k]? = some l) : l.position = k := by
  have hfilter : (splitTrace u).filter (fun l => decide (l.threadId = t)) = splitTrace u := by
    apply List.filter_eq_self.2
    intro l hl
    exact decide_eq_true (hu _ (List.mem_of_getElem? (mem_splitTrace.1 hl)))
  have hsplit : splitTrace (u ++ v) = splitTrace u ++ v.mapIdx fun i symbol => ⟨symbol, i + u.length⟩ := by
    simp [splitTrace, List.mapIdx_append]
  rw [threadedTrace, hsplit, List.filter_append, hfilter,
    List.getElem?_append_left (by simpa [splitTrace] using hk)] at hl
  simp only [splitTrace, List.getElem?_mapIdx, Option.map_eq_some_iff] at hl
  obtain ⟨s, -, rfl⟩ := hl
  rfl

section
variable {it rest2 : LockList} {lock : LockLists} {i j : ℕ} {x y z : Symbol}
  (hlock : ∀ a, a ∈ lock ↔ a = it ∨ a = y :: rest2) (hst : SingleThreaded lock)
  (hfront : frontThread it ≠ frontThread (y :: rest2)) (hx : it[i]? = some x)
include hlock hst hx

theorem threadId_repeat {s : Symbol} (hs : s ∈ it) : s.threadId = x.threadId :=
  (hst it ((hlock it).2 (Or.inl rfl))).2 s hs x (List.mem_of_getElem? hx)

include hfront

theorem threadId_other : y.threadId ≠ x.threadId := by
  intro h
  have hthread := (hst it ((hlock it).2 (Or.inl rfl))).2
  rw [threadId_of_front hthread (List.mem_of_getElem? hx), frontThread_cons, h] at hfront
  exact hfront rfl

variable (hz : it[i + 1]? = some z)
include hz

/-- the monitor sees `y` between the second occurrence of the symbol and the one after the first -/
theorem violates_repeat (hev : ∀ x ∈ lock, ∀ s ∈ x, isEvent s = true) {x' : Symbol} (hx' : it[j]? = some x')
    (hxx : x.equals x' = true) : ViolatesLock lock (it.take (j + 1) ++ [y, z]) := by
  have hit := (hlock it).2 (Or.inl rfl)
  have ht := fun s hs => threadId_repeat hlock hst hx (s := s) hs
  have hzm : z ∈ it := List.mem_of_getElem? hz
  obtain ⟨hj, hx'j⟩ := List.getElem?_eq_some_iff.1 hx'
  have htk : it.take (j + 1) = it.take j ++ [x'] := by rw [List.take_succ_eq_append_getElem hj, hx'j]
  refine ⟨it.take j, x', [y], z, [], by simp [htk], ?_, ?_, it, hit, (x, z), ?_, hxx, Symbol.equals_refl z, y,
    by simp, y :: rest2, (hlock _).2 (Or.inr rfl), hfront,
    Symbol.isIn_iff.2 ⟨y, List.mem_cons_self, Symbol.equals_refl y⟩⟩
  · rw [ht x' (List.mem_of_getElem? hx'), ht z hzm]
  · intro s hs
    rw [List.mem_singleton.1 hs, ht z hzm]
    exact threadId_other hlock hst hfront hx
  · exact (mem_neighbours (noEpsilon_of_event hev it hit)).2 (pair_infix_iff.2 ⟨i, hx, hz⟩)

/-- the constraint only asks that `y` is not inside the match of the first `j + 1` symbols -/
theorem lockExpr_repeat (hij : i < j) (hj : j < it.length)
    (hlast : ∀ y', it[j + 1]? = some y' → z.equals y' = false) :
    lockExpr (it.take (j + 1) ++ [y, z]) lock (fun n => (n : ℤ)) = true := by
  have hit := (hlock it).2 (Or.inl rfl)
  have hxm : x ∈ it := List.mem_of_getElem? hx
  have hty := threadId_other hlock hst hfront hx
  have htz := threadId_repeat hlock hst hx (List.mem_of_getElem? hz)
  have htake : ∀ s ∈ it.take (j + 1), s.threadId = x.threadId := fun s hs =>
    threadId_repeat hlock hst hx (List.mem_of_mem_take hs)
  by_contra hno
  obtain ⟨itA, hitA, itB, hitB, hne, l, hl, l2, hl2, hin, -, hle⟩ := lockExpr_eq_false.1 (Bool.eq_false_iff.2 hno)
  obtain ⟨ie, hie, hstart, hfin⟩ := mem_findLockLocs.1 hl
  rcases (hlock itA).1 hitA with rfl | rfl
  · have htA : (itA.head?.map Symbol.threadId).getD 0 = x.threadId := by
      have hfrontA := threadId_of_front (hst itA hit).2 hxm
      rw [frontThread] at hfrontA
      rw [hfrontA]
      rfl
    have hthread : threadSymbols (itA.take (j + 1) ++ [y, z]) x.threadId = itA.take (j + 1) ++ [z] := by
      rw [threadSymbols_eq, List.filter_append, List.filter_eq_self.2 fun s hs => decide_eq_true (htake s hs)]
      simp [hty, htz]
    have hmatch : ie = (0, j) := by
      have huv : [x, z] <:+: itA := pair_infix_iff.2 ⟨i, hx, hz⟩
      rw [findLockMatches_eq huv, htA, hthread, scanList_take hj (by omega) hlast] at hie
      exact List.mem_singleton.1 hie
    rw [hmatch, htA] at hfin
    have hpos : l.2.position = j := threadedTrace_append htake (by rw [List.length_take]; omega) hfin
    have hl2pos : l2.position < j + 1 := by
      rw [hpos] at hle
      exact Nat.lt_succ_of_le (by exact_mod_cast hle)
    have hmem : l2.symbol ∈ itA.take (j + 1) := by
      have hget := mem_splitTrace.1 hl2
      rw [List.getElem?_append_left (by rw [List.length_take]; omega)] at hget
      exact List.mem_of_getElem? hget
    obtain ⟨sym, hsymB, heq⟩ := Symbol.isIn_iff.1 hin
    rw [threadId_of_front (hst itA hit).2 hxm, threadId_of_front (hst itB hitB).2 hsymB,
      Symbol.threadId_eq_of_equals heq, htake _ hmem] at hne
    exact hne rfl
  · -- the other list has only one symbol in the trace
    obtain ⟨d, suffix, hpos, -, -, hm⟩ := findLockMatches_sound hie
    have hthread : threadSymbols (it.take (j + 1) ++ [y, z]) y.threadId = [y] := by
      rw [threadSymbols_eq, List.filter_append,
        List.filter_eq_nil_iff.2 fun s hs => by simp [htake s hs, Ne.symm hty]]
      simp [htz, Ne.symm hty]
    obtain ⟨s, -, hs, -, -⟩ := hm d (by omega)
    have hs' : (threadSymbols (it.take (j + 1) ++ [y, z]) y.threadId)[ie.1 + d]? = some s := hs
    rw [hthread] at hs'
    have hlt := (List.getElem?_eq_some_iff.1 hs').1
    simp only [List.length_singleton] at hlt
    omega

end

/-- **A list that has a symbol twice**: on some trace the encodings do not agree. -/
theorem disagree (p : Program) (deadlock : Bool) {it it2 : LockList} {lock : LockLists}
    (hlock : ∀ x, x ∈ lock ↔ x = it ∨ x = it2) (hst : SingleThreaded lock)
    (hev : ∀ x ∈ lock, ∀ s ∈ x, isEvent s = true) (hfront : frontThread it ≠ frontThread it2)
    (hsize : (restricted p deadlock [[[lock]]]).conflicts.length ≤ maxPayload + 1) (hd : ¬Distinct it) :
    ∃ w a, (∀ s ∈ w, isEvent s = true) ∧ KeepsThreadOrder w a ∧ ¬Agree p deadlock [[lock]] w a := by
  obtain ⟨i, j, x, x', z, hij, hx, hx', hxx, hz, hlast⟩ := exists_repeat hd
  have hit2 : it2 ∈ lock := (hlock it2).2 (Or.inr rfl)
  obtain ⟨y, rest2, rfl⟩ := List.exists_cons_of_ne_nil (hst it2 hit2).1
  have hw : ∀ s ∈ it.take (j + 1) ++ [y, z], isEvent s = true := by
    intro s hs
    simp only [List.mem_append, List.mem_cons, List.not_mem_nil, or_false] at hs
    have hit : it ∈ lock := (hlock it).2 (Or.inl rfl)
    rcases hs with hs | rfl | rfl
    · exact hev it hit s (List.mem_of_mem_take hs)
    · exact hev _ hit2 s List.mem_cons_self
    · exact hev it hit s (List.mem_of_getElem? hz)
  obtain ⟨hword, hkeep⟩ := word_position (it.take (j + 1) ++ [y, z])
  refine ⟨_, _, hw, hkeep, fun hagree => ?_⟩
  have hwf : WellFormedClauses [[lock]] := by
    intro cl hcl l hl
    rw [List.mem_singleton.1 hcl, List.mem_singleton] at hl
    exact hl ▸ hst
  have hrej : ¬Accepted p deadlock [[lock]] (word (it.take (j + 1) ++ [y, z]) fun n => (n : ℤ)) := by
    rw [accepted_iff p deadlock hwf (numbersFit_of_length p deadlock hsize _) hw, hword]
    intro hacc
    refine hacc [lock] (by simp) (by simp) fun l hl => ?_
    rw [List.mem_singleton.1 hl]
    exact violates_repeat hlock hst hfront hx hz hev hx' hxx
  refine hrej (hagree.1 (synthLocks_iff.2 fun cl hcl hall => ?_))
  have hfalse := hall lock (by rw [List.mem_singleton.1 hcl]; exact List.mem_singleton_self _)
  rw [lockExpr_repeat hlock hst hfront hx hz hij (List.getElem?_eq_some_iff.1 hx').1 hlast] at hfalse
  exact absurd hfalse (by simp)

/-- **When the two encodings agree.** On a trace of which no symbol occurs twice in a list they do; for a lock with two
lists they agree on all traces iff no list has a symbol twice. -/
theorem encodings_agree (p : Program) (deadlock : Bool) :
    (∀ clauses : LockSymbols, WellFormedClauses clauses → EventLists clauses → (∀ cl ∈ clauses, cl ≠ []) →
      ∀ w a, NumbersFit p deadlock clauses w → (∀ s ∈ w, isEvent s = true) → KeepsThreadOrder w a →
        (∀ cl ∈ clauses, ∀ lock ∈ cl, OnceIn w lock) → Agree p deadlock clauses w a) ∧
    ∀ it it2 : LockList, SingleThreaded [it, it2] → EventLists [[[it, it2]]] → frontThread it ≠ frontThread it2 →
      (restricted p deadlock [[[[it, it2]]]]).conflicts.length ≤ maxPayload + 1 →
      ((∀ w a, (∀ s ∈ w, isEvent s = true) → KeepsThreadOrder w a → Agree p deadlock [[[it, it2]]] w a) ↔
        Distinct it ∧ Distinct it2) := by
  refine ⟨fun clauses hwf hev hne w a hfit hw hk honce => agree_of_once p deadlock hwf hev hne hfit hw hk honce,
    fun it it2 hst hev hfront hsize => ?_⟩
  have hlists : ∀ x ∈ [it, it2], ∀ s ∈ x, isEvent s = true :=
    hev _ (List.mem_singleton_self _) _ (List.mem_singleton_self _)
  constructor
  · intro hagree
    constructor
    · by_contra hd
      obtain ⟨w, a, hw, hk, hno⟩ := disagree p deadlock (by simp) hst hlists hfront hsize hd
      exact hno (hagree w a hw hk)
    · by_contra hd
      obtain ⟨w, a, hw, hk, hno⟩ := disagree p deadlock (by simp [or_comm]) hst hlists hfront.symm hsize hd
      exact hno (hagree w a hw hk)
  · rintro ⟨hd, hd2⟩ w a hw hk
    refine agree_of_once p deadlock ?_ hev (by simp) (numbersFit_of_length p deadlock hsize w) hw hk ?_
    · intro cl hcl l hl
      rw [List.mem_singleton.1 hcl, List.mem_singleton] at hl
      exact hl ▸ hst
    · intro cl hcl l hl x hx
      rw [List.mem_singleton.1 hcl, List.mem_singleton] at hl
      rw [hl] at hx
      rcases List.mem_cons.1 hx with rfl | hx
      · exact hd.once w
      · rw [List.mem_singleton.1 hx]
        exact hd2.once w

theorem interrupted_agree :
    Agree lockedProgram false [[[[write1, write2], [writeOther]]]] [write1, writeOther, write2] fun i => (i : ℤ) := by
  have hlists : ∀ it ∈ [[write1, write2], [writeOther]], Distinct it := by decide
  have hfit := numbersFit_of_length lockedProgram false
    (by decide : (restricted lockedProgram false [[[[[write1, write2], [writeOther]]]]]).conflicts.length ≤ maxPayload + 1)
  refine (encodings_agree lockedProgram false).1 _ ?_ ?_ (by simp) _ _ (hfit _) (by decide) (word_position _).2 ?_
  · intro cl hcl lock hl
    rw [List.mem_singleton.1 hcl, List.mem_singleton] at hl
    subst hl
    decide
  · intro cl hcl lock hl
    rw [List.mem_singleton.1 hcl, List.mem_singleton] at hl
    subst hl
    decide
  · intro cl hcl lock hl it hit
    rw [List.mem_singleton.1 hcl, List.mem_singleton] at hl
    subst hl
    exact (hlists it hit).once _

/-! ## A loop -/

/-- `while (nondet) { x = 1; if (nondet) y = 1; else z = 1; }` -/
def loopX : Symbol := { operation := .write, var := 0, loc := ⟨0, 3⟩ }
def loopY : Symbol := { operation := .write, var := 1, loc := ⟨0, 4⟩ }
def loopZ : Symbol := { operation := .write, var := 2, loc := ⟨0, 5⟩ }

/-- **the encodings differ**: no match starts at the second `x`, so anything may come between `x` and `z` -/
theorem encodings_differ :
    ¬∀ (p : Program) (deadlock : Bool) (clauses : LockSymbols) (w : List Symbol) (a : Assignment),
      WellFormedClauses clauses → EventLists clauses → (∀ s ∈ w, isEvent s = true) → KeepsThreadOrder w a →
        Agree p deadlock clauses w a := by
  intro hall
  have hst : SingleThreaded [[loopX, loopY, loopX, loopZ], [writeOther]] := by decide
  have hev : ∀ it ∈ [[loopX, loopY, loopX, loopZ], [writeOther]], ∀ s ∈ it, isEvent s = true := by decide
  have hagree := hall lockedProgram false [[[[loopX, loopY, loopX, loopZ], [writeOther]]]] [loopX, writeOther, loopZ]
    (fun i => (i : ℤ)) (fun cl hcl lock hl => ?_) (fun cl hcl lock hl => ?_) (by decide) (word_position _).2
  · have htrue : synthLocks [loopX, writeOther, loopZ] [[[[loopX, loopY, loopX, loopZ], [writeOther]]]]
        (fun i => (i : ℤ)) = true := by decide
    obtain ⟨m, hm⟩ := hagree.1 htrue
    rw [(word_position _).1] at hm
    have hrun : (restricted lockedProgram false [[[[[loopX, loopY, loopX, loopZ], [writeOther]]]]]).monitorRun
        (restricted lockedProgram false [[[[[loopX, loopY, loopX, loopZ], [writeOther]]]]]).startMonitor
        [loopX, writeOther, loopZ] = .ok none := by decide
    rw [hrun] at hm
    simp at hm
  · rw [List.mem_singleton.1 hcl, List.mem_singleton] at hl
    exact hl ▸ hst
  · rw [List.mem_singleton.1 hcl, List.mem_singleton] at hl
    exact hl ▸ hev

end Liss.Synthesis
