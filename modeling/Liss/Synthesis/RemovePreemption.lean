/-
`remove_preemption` of `synthesis/trace_helpers.cpp`: the lists of a lock are split at preemption points.

`trim_list` erases the epsilon symbols from the front and then reads `list.back()` while that is one; on a list of
epsilon symbols only the front has been erased completely, and `back()` reads an empty list. This is `none`.

- `segmented`: what the function is for, in terms of the runs of each list;
- `removePreemption_iff`: it does that iff no run consists of epsilon symbols only;
- `violatesLock_segments`: a lock is violated afterwards iff it was violated before at two neighbours, and by a symbol,
  none of which is a preemption point;
- `removePreemption_violated`: so what is left of a clause is violated where no preemption point takes part.
-/
import Mathlib.Data.List.DropRight
import Liss.Lib.Runs
import Liss.Synthesis.Orderings

namespace Liss.Synthesis

/-! ## The source -/

/-- the second loop of `trim_list`, over the list from its end -/
def trimEnd : LockList → Option LockList
  | [] => none
  | s :: list => if s.isRealEpsilon then trimEnd list else some (s :: list)

/-- `trim_list` -/
def trimList (list : LockList) : Option LockList :=
  (trimEnd (list.dropWhile Symbol.isRealEpsilon).reverse).map List.reverse

/-- what `split_list` does with the symbols between `last` and `master` when there are any -/
def addSegment (result : List LockList) (segment : LockList) : Option (List LockList) :=
  (trimList segment).map fun trimmed => if trimmed.isEmpty then result else result ++ [trimmed]

/-- `if (master != last)` -/
def closeSegment (result : List LockList) (segment : LockList) : Option (List LockList) :=
  if segment.isEmpty then some result else addSegment result segment

/-- the loop of `split_list`; `segment` are the symbols between `last` and `master` -/
def splitFrom (segment : LockList) : LockList → List LockList → Option (List LockList)
  | [], result => closeSegment result segment
  | s :: rest, result =>
    if s.isPreemptionPoint then (closeSegment result segment).bind (splitFrom [] rest)
    else splitFrom (segment ++ [s]) rest result

/-- `split_list` -/
def splitList (result : List LockList) (list : LockList) : Option (List LockList) := splitFrom [] list result

/-- `splitted`, after the loop over the lists of a lock -/
def splitLists (lock : LockLists) : Option LockLists := lock.foldlM splitList []

/-- the loop over the locks of a clause -/
def removeFromClause : Disj LockLists → Option (Disj LockLists)
  | [] => some []
  | lock :: rest =>
    (splitLists lock).bind fun splitted =>
      (removeFromClause rest).map fun rest' => if splitted.length ≤ 1 then rest' else splitted :: rest'

/-- `remove_preemption` -/
def removePreemption : LockSymbols → Option LockSymbols
  | [] => some []
  | dis :: rest =>
    (removeFromClause dis).bind fun dis' =>
      (removePreemption rest).map fun rest' => if dis'.isEmpty then rest' else dis' :: rest'

/-! ## Its purpose -/

/-- without the epsilon symbols at both ends -/
def strip (list : LockList) : LockList := (list.dropWhile Symbol.isRealEpsilon).rdropWhile Symbol.isRealEpsilon

/-- the stripped runs of the lists, if anything is left of them -/
def segments (lock : LockLists) : LockLists :=
  ((lock.flatMap (runs Symbol.isPreemptionPoint)).map strip).filter fun list => !list.isEmpty

/-- the locks with at least two lists -/
def segmentedClause (clause : Disj LockLists) : Disj LockLists :=
  (clause.map segments).filter fun lock => decide (2 ≤ lock.length)

/-- the clauses with at least one lock -/
def segmented (locks : LockSymbols) : LockSymbols := (locks.map segmentedClause).filter fun clause => !clause.isEmpty

/-- not all symbols are epsilon symbols -/
def solid (segment : LockList) : Bool := segment.any fun s => !s.isRealEpsilon

/-- every run of every list has a symbol that is no epsilon symbol -/
def solidLock (lock : LockLists) : Bool := (lock.flatMap (runs Symbol.isPreemptionPoint)).all solid

/-! ## `trim_list` -/

theorem trimEnd_eq (list : LockList) :
    trimEnd list = if solid list then some (list.dropWhile Symbol.isRealEpsilon) else none := by
  induction list with
  | nil => rfl
  | cons s list ih =>
    rw [trimEnd, solid, List.any_cons, List.dropWhile_cons]
    cases hs : s.isRealEpsilon with
    | true => simpa [solid] using ih
    | false => simp

theorem solid_dropWhile (list : LockList) : solid (list.dropWhile Symbol.isRealEpsilon) = solid list := by
  induction list with
  | nil => rfl
  | cons s list ih =>
    rw [List.dropWhile_cons]
    cases hs : s.isRealEpsilon with
    | true => simpa [solid, hs] using ih
    | false => simp

theorem trimList_eq (list : LockList) : trimList list = if solid list then some (strip list) else none := by
  have hrev : solid (list.dropWhile Symbol.isRealEpsilon).reverse = solid list := by
    rw [← solid_dropWhile list]
    simp [solid]
  rw [trimList, trimEnd_eq, hrev]
  cases solid list <;> rfl

theorem strip_ne_nil {list : LockList} (h : solid list = true) : strip list ≠ [] := by
  rw [← solid_dropWhile] at h
  intro hnil
  rw [strip, List.rdropWhile_eq_nil_iff] at hnil
  obtain ⟨s, hs, heps⟩ := List.any_eq_true.1 h
  simp [hnil s hs] at heps

/-! ## `split_list` -/

theorem addSegment_eq (result : List LockList) (segment : LockList) :
    addSegment result segment = if solid segment then some (result ++ [strip segment]) else none := by
  rw [addSegment, trimList_eq]
  cases h : solid segment with
  | true => simp [strip_ne_nil h]
  | false => rfl

theorem foldlM_addSegment (result : List LockList) (list : List LockList) :
    list.foldlM addSegment result = if list.all solid then some (result ++ list.map strip) else none := by
  induction list generalizing result with
  | nil => simp
  | cons segment list ih =>
    rw [List.foldlM_cons, addSegment_eq, List.all_cons]
    cases h : solid segment with
    | true => simp [ih]
    | false => rfl

/-- the loop of `split_list` adds the runs one after the other -/
theorem splitFrom_eq {segment : LockList} (h : ∀ s ∈ segment, s.isPreemptionPoint = false) (list : LockList)
    (result : List LockList) :
    splitFrom segment list result = (runs Symbol.isPreemptionPoint (segment ++ list)).foldlM addSegment result := by
  have hclose : ∀ segment : LockList, (∀ s ∈ segment, s.isPreemptionPoint = false) → ∀ result,
      closeSegment result segment = (runs Symbol.isPreemptionPoint segment).foldlM addSegment result := by
    intro segment h result
    cases segment with
    | nil => simp [closeSegment]
    | cons s segment =>
      rw [runs_of_forall h (List.cons_ne_nil s segment)]
      simp [closeSegment]
  induction list generalizing segment result with
  | nil => rw [splitFrom, hclose segment h, List.append_nil]
  | cons s list ih =>
    rw [splitFrom]
    cases hs : s.isPreemptionPoint with
    | true =>
      rw [if_pos rfl, runs_append_cons hs, List.foldlM_append, hclose segment h]
      refine congrArg _ (funext fun result' => ?_)
      rw [ih (by simp), List.nil_append]
    | false =>
      rw [if_neg Bool.false_ne_true, ih, List.append_assoc, List.singleton_append]
      intro x hx
      rcases List.mem_append.1 hx with hx | hx
      · exact h x hx
      · rw [List.mem_singleton.1 hx, hs]

theorem splitLists_foldlM (lock : LockLists) (result : List LockList) :
    lock.foldlM splitList result = (lock.flatMap (runs Symbol.isPreemptionPoint)).foldlM addSegment result := by
  induction lock generalizing result with
  | nil => rfl
  | cons list lock ih =>
    rw [List.foldlM_cons, List.flatMap_cons, List.foldlM_append, splitList, splitFrom_eq (by simp), List.nil_append]
    exact congrArg _ (funext fun result' => ih result')

theorem segments_eq {lock : LockLists} (h : solidLock lock = true) :
    segments lock = (lock.flatMap (runs Symbol.isPreemptionPoint)).map strip := by
  apply List.filter_eq_self.2
  intro list hlist
  obtain ⟨run, hrun, rfl⟩ := List.mem_map.1 hlist
  simp [strip_ne_nil (List.all_eq_true.1 h run hrun)]

theorem splitLists_eq (lock : LockLists) :
    splitLists lock = if solidLock lock then some (segments lock) else none := by
  rw [splitLists, splitLists_foldlM, foldlM_addSegment, List.nil_append]
  cases h : solidLock lock with
  | true =>
    rw [solidLock] at h
    rw [if_pos h, if_pos rfl, segments_eq h]
  | false =>
    rw [solidLock] at h
    rw [if_neg (by simp [h]), if_neg Bool.false_ne_true]

/-! ## `remove_preemption` -/

theorem removeFromClause_eq (clause : Disj LockLists) :
    removeFromClause clause = if clause.all solidLock then some (segmentedClause clause) else none := by
  induction clause with
  | nil => rfl
  | cons lock clause ih =>
    rw [removeFromClause, splitLists_eq, ih, List.all_cons]
    cases hlock : solidLock lock with
    | false => rfl
    | true =>
      cases clause.all solidLock with
      | false => rfl
      | true =>
        simp only [if_true, Bool.and_self, Option.bind_some, Option.map_some, segmentedClause, List.map_cons,
          List.filter_cons]
        by_cases hlen : (segments lock).length ≤ 1
        · rw [if_pos hlen, if_neg (by simpa using Nat.lt_succ_of_le hlen)]
        · have hlen' : 2 ≤ (segments lock).length := not_le.1 hlen
          rw [if_neg hlen, if_pos (decide_eq_true hlen')]

theorem removePreemption_eq (locks : LockSymbols) :
    removePreemption locks =
      if locks.all (fun clause => clause.all solidLock) then some (segmented locks) else none := by
  induction locks with
  | nil => rfl
  | cons clause locks ih =>
    rw [removePreemption, removeFromClause_eq, ih, List.all_cons]
    cases hclause : clause.all solidLock with
    | false => rfl
    | true =>
      cases locks.all fun clause => clause.all solidLock with
      | false => rfl
      | true =>
        simp only [if_true, Bool.and_self, Option.bind_some, Option.map_some, segmented, List.map_cons,
          List.filter_cons]
        cases (segmentedClause clause).isEmpty <;> rfl

theorem solidLock_iff {lock : LockLists} : solidLock lock = true ↔
    ∀ list ∈ lock, ∀ run ∈ runs Symbol.isPreemptionPoint list, ∃ s ∈ run, s.isRealEpsilon = false := by
  simp only [solidLock, solid, List.all_eq_true, List.mem_flatMap, List.any_eq_true, Bool.not_eq_true']
  exact ⟨fun h list hlist run hrun => h run ⟨list, hlist, hrun⟩, fun h run ⟨list, hlist, hrun⟩ => h list hlist run hrun⟩

/-- **When the segmentation is exact**: no run consists of epsilon symbols only. -/
theorem removePreemption_iff (locks : LockSymbols) :
    removePreemption locks = some (segmented locks) ↔
      ∀ clause ∈ locks, ∀ lock ∈ clause, ∀ list ∈ lock, ∀ run ∈ runs Symbol.isPreemptionPoint list,
        ∃ s ∈ run, s.isRealEpsilon = false := by
  have hsolid : (locks.all fun clause => clause.all solidLock) = true ↔ ∀ clause ∈ locks, ∀ lock ∈ clause,
      ∀ list ∈ lock, ∀ run ∈ runs Symbol.isPreemptionPoint list, ∃ s ∈ run, s.isRealEpsilon = false := by
    simp only [List.all_eq_true, solidLock_iff]
  rw [← hsolid, removePreemption_eq]
  constructor
  · intro h
    by_contra hno
    rw [if_neg hno] at h
    simp at h
  · intro h
    rw [if_pos h]

/-- `x=1; yield(); …; yield(); x=2;`, where an epsilon symbol stands between the yields, and `y=1;` in another thread -/
def yieldTwice : LockSymbols :=
  [[[[{ operation := .write, var := 0, loc := ⟨0, 2⟩ }, { operation := .yield, loc := ⟨0, 3⟩ },
      Symbol.ofState 0 4, { operation := .yield, loc := ⟨0, 5⟩ }, { operation := .write, var := 0, loc := ⟨0, 6⟩ }],
    [{ operation := .write, var := 1, loc := ⟨1, 2⟩ }]]]]

theorem yieldTwice_reads_empty : removePreemption yieldTwice = none ∧ removePreemption yieldTwice ≠
    some (segmented yieldTwice) := by
  have hnone : removePreemption yieldTwice = none := by decide
  exact ⟨hnone, by rw [hnone]; simp⟩

/-! ## Violations -/

/-- the lock is violated at two neighbours, and by a symbol, none of which is a preemption point -/
def ViolatesInside (lock : LockLists) (ev : List Symbol) : Prop :=
  ∃ pre x b y post, ev = pre ++ x :: (b ++ y :: post) ∧ x.threadId = y.threadId ∧ (∀ s ∈ b, s.threadId ≠ y.threadId) ∧
    ∃ it ∈ lock, ∃ uv ∈ ConcurrentAutomaton.neighbours it, uv.1.equals x = true ∧ uv.2.equals y = true ∧
      uv.1.isPreemptionPoint = false ∧ uv.2.isPreemptionPoint = false ∧
        ∃ s ∈ b, ∃ it2 ∈ lock, ConcurrentAutomaton.frontThread it ≠ ConcurrentAutomaton.frontThread it2 ∧
          ∃ sy ∈ it2, sy.isPreemptionPoint = false ∧ sy.equals s = true

variable {lock : LockLists} {ev : List Symbol}

theorem strip_of_noEpsilon {list : LockList} (h : ∀ s ∈ list, s.isRealEpsilon = false) : strip list = list := by
  have hdrop : list.dropWhile Symbol.isRealEpsilon = list := by
    cases list with
    | nil => rfl
    | cons s list => rw [List.dropWhile_cons, if_neg (by simp [h s List.mem_cons_self])]
  rw [strip, hdrop, List.rdropWhile_eq_self_iff]
  intro hne
  simp [h _ (List.getLast_mem hne)]

theorem solidLock_of_noEpsilon (h : NoEpsilon lock) : solidLock lock = true := by
  apply solidLock_iff.2
  intro list hlist run hrun
  obtain ⟨hne, hin, -⟩ := mem_runs hrun
  obtain ⟨s, run', rfl⟩ := List.exists_cons_of_ne_nil hne
  exact ⟨s, List.mem_cons_self, h list hlist s (hin.subset List.mem_cons_self)⟩

/-- without epsilon symbols the lists are the runs -/
theorem mem_segments (h : NoEpsilon lock) {list : LockList} :
    list ∈ segments lock ↔ ∃ it ∈ lock, list ∈ runs Symbol.isPreemptionPoint it := by
  have hrun : ∀ it ∈ lock, ∀ run ∈ runs Symbol.isPreemptionPoint it, strip run = run := fun it hit run hr =>
    strip_of_noEpsilon fun s hs => h it hit s ((mem_runs hr).2.1.subset hs)
  rw [segments_eq (solidLock_of_noEpsilon h)]
  simp only [List.mem_map, List.mem_flatMap]
  constructor
  · rintro ⟨run, ⟨it, hit, hr⟩, rfl⟩
    exact ⟨it, hit, by rwa [hrun it hit run hr]⟩
  · rintro ⟨it, hit, hr⟩
    exact ⟨list, ⟨it, hit, hr⟩, hrun it hit list hr⟩

theorem noEpsilon_segments (h : NoEpsilon lock) : NoEpsilon (segments lock) := by
  intro list hlist s hs
  obtain ⟨it, hit, hr⟩ := (mem_segments h).1 hlist
  exact h it hit s ((mem_runs hr).2.1.subset hs)

/-- a run has the thread of its list -/
theorem frontThread_run (hst : SingleThreaded lock) {it run : LockList} (hit : it ∈ lock)
    (hr : run ∈ runs Symbol.isPreemptionPoint it) :
    ConcurrentAutomaton.frontThread run = ConcurrentAutomaton.frontThread it := by
  obtain ⟨hne, hin, -⟩ := mem_runs hr
  obtain ⟨s, run, rfl⟩ := List.exists_cons_of_ne_nil hne
  rw [frontThread_cons, threadId_of_front (hst it hit).2 (hin.subset List.mem_cons_self)]

/-- **Which violations are left.** -/
theorem violatesLock_segments (hst : SingleThreaded lock) (hne : NoEpsilon lock) :
    ViolatesLock (segments lock) ev ↔ ViolatesInside lock ev := by
  constructor
  · rintro ⟨pre, x, b, y, post, heq, hxy, hb, run, hrun, uv, huv, hu, hv, s, hs, run2, hrun2, hthread, hin⟩
    obtain ⟨it, hit, hr⟩ := (mem_segments hne).1 hrun
    obtain ⟨it2, hit2, hr2⟩ := (mem_segments hne).1 hrun2
    obtain ⟨sy, hsy, hsys⟩ := Symbol.isIn_iff.1 hin
    rw [mem_neighbours (noEpsilon_segments hne run hrun)] at huv
    obtain ⟨-, hinfix, hfree⟩ := mem_runs hr
    rw [frontThread_run hst hit hr, frontThread_run hst hit2 hr2] at hthread
    exact ⟨pre, x, b, y, post, heq, hxy, hb, it, hit, uv, (mem_neighbours (hne it hit)).2 (huv.trans hinfix), hu, hv,
      hfree _ (huv.subset (by simp)), hfree _ (huv.subset (by simp)), s, hs, it2, hit2, hthread, sy,
      (mem_runs hr2).2.1.subset hsy, (mem_runs hr2).2.2 sy hsy, hsys⟩
  · rintro ⟨pre, x, b, y, post, heq, hxy, hb, it, hit, ⟨u, v⟩, huv, hu, hv, hup, hvp, s, hs, it2, hit2, hthread, sy,
      hsy, hsyp, hsys⟩
    rw [mem_neighbours (hne it hit)] at huv
    -- the neighbours are in one run, the symbol in between is in a run of the other list
    obtain ⟨run, hr, hinfix⟩ := exists_run (p := Symbol.isPreemptionPoint) (List.cons_ne_nil u [v])
      (by simp [hup, hvp]) huv
    obtain ⟨run2, hr2, hsy2⟩ := exists_run (p := Symbol.isPreemptionPoint) (List.cons_ne_nil sy []) (by simp [hsyp])
      ((List.singleton_infix_iff sy it2).2 hsy)
    have hrun := (mem_segments hne).2 ⟨it, hit, hr⟩
    rw [← frontThread_run hst hit hr, ← frontThread_run hst hit2 hr2] at hthread
    exact ⟨pre, x, b, y, post, heq, hxy, hb, run, hrun, (u, v),
      (mem_neighbours (noEpsilon_segments hne run hrun)).2 hinfix, hu, hv, s, hs, run2,
      (mem_segments hne).2 ⟨it2, hit2, hr2⟩, hthread, Symbol.isIn_iff.2 ⟨sy, hsy2.subset (by simp), hsys⟩⟩

/-- **What is left of a clause is violated where no preemption point takes part.** -/
theorem removePreemption_violated {locks : LockSymbols} (hst : ∀ clause ∈ locks, ∀ lock ∈ clause, SingleThreaded lock)
    (hne : ∀ clause ∈ locks, ∀ lock ∈ clause, NoEpsilon lock) :
    ∃ out, removePreemption locks = some out ∧ ∀ clause ∈ locks, ∃ clause', removeFromClause clause = some clause' ∧
      (clause' = [] ∨ clause' ∈ out) ∧ ∀ lock' ∈ clause', ∃ lock ∈ clause, splitLists lock = some lock' ∧
        ∀ ev, (ViolatesLock lock' ev ↔ ViolatesInside lock ev) ∧ (ViolatesInside lock ev →
          ∃ it ∈ lock', ∃ it2 ∈ lock', ConcurrentAutomaton.frontThread it ≠ ConcurrentAutomaton.frontThread it2) := by
  have hsolid : ∀ clause ∈ locks, clause.all solidLock = true := fun clause hc =>
    List.all_eq_true.2 fun lock hl => solidLock_of_noEpsilon (hne clause hc lock hl)
  refine ⟨segmented locks, by rw [removePreemption_eq, if_pos (List.all_eq_true.2 hsolid)], fun clause hc => ?_⟩
  refine ⟨segmentedClause clause, by rw [removeFromClause_eq, if_pos (hsolid clause hc)], ?_, fun lock' hl' => ?_⟩
  · by_cases hnil : segmentedClause clause = []
    · exact Or.inl hnil
    · exact Or.inr (List.mem_filter.2 ⟨List.mem_map_of_mem hc, by simpa using hnil⟩)
  · obtain ⟨lock, hl, rfl⟩ := List.mem_map.1 (List.mem_filter.1 hl').1
    refine ⟨lock, hl, by rw [splitLists_eq, if_pos (solidLock_of_noEpsilon (hne clause hc lock hl))], fun ev => ?_⟩
    have hiff : ViolatesLock (segments lock) ev ↔ ViolatesInside lock ev :=
      violatesLock_segments (hst clause hc lock hl) (hne clause hc lock hl)
    refine ⟨hiff, fun hv => ?_⟩
    obtain ⟨-, -, -, -, -, -, -, -, it, hit, -, -, -, -, -, -, it2, hit2, hthread, -⟩ := hiff.2 hv
    exact ⟨it, hit, it2, hit2, hthread⟩

/-! ## A violation across a preemption point -/

def writeX : Symbol := { operation := .write, var := 0, loc := ⟨0, 2⟩ }
def writeXAgain : Symbol := { operation := .write, var := 0, loc := ⟨0, 3⟩ }
def yieldX : Symbol := { operation := .yield, loc := ⟨0, 4⟩ }
def writeY : Symbol := { operation := .write, var := 1, loc := ⟨1, 2⟩ }

/-- `x=1; x=2; yield();` and `y=1;` -/
def yieldLock : LockLists := [[writeX, writeXAgain, yieldX], [writeY]]

theorem removePreemption_violated_yield :
    ∃ out, removePreemption [[yieldLock]] = some out ∧ ∀ clause ∈ [[yieldLock]], ∃ clause',
      removeFromClause clause = some clause' ∧ (clause' = [] ∨ clause' ∈ out) ∧ ∀ lock' ∈ clause', ∃ lock ∈ clause,
        splitLists lock = some lock' ∧ ∀ ev, (ViolatesLock lock' ev ↔ ViolatesInside lock ev) ∧
          (ViolatesInside lock ev → ∃ it ∈ lock', ∃ it2 ∈ lock',
            ConcurrentAutomaton.frontThread it ≠ ConcurrentAutomaton.frontThread it2) := by
  refine removePreemption_violated ?_ ?_
  · decide
  · unfold NoEpsilon
    decide

/-- the lock is violated when the other thread writes before the yield; it remains, but it is not violated any more -/
theorem yieldLock_not_violated :
    ViolatesClause [yieldLock] [writeXAgain, writeY, yieldX] ∧
      removePreemption [[yieldLock]] = some [[[[writeX, writeXAgain], [writeY]]]] ∧
      ¬ViolatesLock [[writeX, writeXAgain], [writeY]] [writeXAgain, writeY, yieldX] := by
  refine ⟨?_, by decide, ?_⟩
  · intro lock hl
    rw [List.mem_singleton.1 hl]
    exact ⟨[], writeXAgain, [writeY], yieldX, [], rfl, rfl, by decide, [writeX, writeXAgain, yieldX], by decide,
      (writeXAgain, yieldX), by decide, by decide, by decide, writeY, by decide, [writeY], by decide, by decide,
      by decide⟩
  · rintro ⟨pre, x, b, y, post, heq, -, -, it, hit, uv, huv, hu, hv, -⟩
    -- the only neighbours that are left are the two writes, and the first is not in the word
    have hx : x ∈ [writeXAgain, writeY, yieldX] := by rw [heq]; simp
    have huv' : uv = (writeX, writeXAgain) := by
      rcases List.mem_cons.1 hit with rfl | hit
      · simpa [ConcurrentAutomaton.neighbours, writeX, writeXAgain, Symbol.isRealEpsilon] using huv
      · rw [List.mem_singleton.1 hit] at huv
        simp [ConcurrentAutomaton.neighbours, writeY, Symbol.isRealEpsilon] at huv
    rw [huv'] at hu
    have hno : ∀ s ∈ [writeXAgain, writeY, yieldX], writeX.equals s = false := by decide
    rw [hno x hx] at hu
    exact Bool.false_ne_true hu

end Liss.Synthesis
