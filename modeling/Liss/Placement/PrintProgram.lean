/-
`place_locks::find_locks`, `place_locks::remove_duplicates` and `placement/print_program.cpp`: from an assignment to the
lock operations that stand at each point of the printed program.

The entries of the solver's model come in an unspecified order (`ModelOrder`), and so do equal elements after
`std::sort` (`LockSort`). A point of the program is a source location; states with the same location share the text
there, of which `remove_duplicates` keeps one copy. The braces around single statements and the declarations of the
locks are left out.

- `printWithLocks_eq`: both directions of insertion give descending lock numbers;
- `mem_text`, `text_sorted`: the text at a state has the operations that the assignment places there, each once, in
  descending order of the locks.
-/
import Liss.Placement.Discipline

namespace Liss

inductive LockType where
  | lock
  | unlock
deriving DecidableEq, Repr

inductive PositionType where
  | before
  | after
deriving DecidableEq, Repr

structure SinglePlacement where
  lock : ℕ
  lockT : LockType
  position : PositionType
  location : Location
deriving DecidableEq, Repr

/-- in what order the entries of a function of the model are read -/
structure ModelOrder where
  visit : List SinglePlacement → List SinglePlacement
  perm : ∀ l, (visit l).Perm l

/-- `std::sort` by the lock -/
structure LockSort where
  sort : List SinglePlacement → List SinglePlacement
  perm : ∀ l, (sort l).Perm l
  sorted : ∀ l, (sort l).Pairwise fun a b => a.lock ≤ b.lock

namespace PlaceLocks

variable (m : LockAssignment) (n : ℕ) (threads : List AbstractCfg) (order : ModelOrder) (sort : LockSort)

/-- `threads[x.thread]->get_state(x.state)` -/
def stateAt (x : Location) : State := (threads.getD x.thread (AbstractCfg.empty x.thread)).getState x.state

/-- the source location of a position at a state -/
def sourceOf (position : PositionType) (x : Location) : Option ℕ :=
  match position with
  | .before => (stateAt threads x).lockBefore
  | .after => (stateAt threads x).lockAfter

/-- the function that places an operation -/
def placed (lockT : LockType) (position : PositionType) : Location → ℕ → Bool :=
  match lockT, position with
  | .lock, .before => m.lockB
  | .unlock, .before => m.unlockB
  | .lock, .after => m.lockA
  | .unlock, .after => m.unlockA

/-- `result_to_locklist`: the entries of one function that are true -/
def entries (lockT : LockType) (position : PositionType) : List SinglePlacement :=
  threads.zipIdx.flatMap fun ct => (stateIds ct.1).flatMap fun i =>
    ((List.range n).filter fun l => placed m lockT position ⟨ct.2, i⟩ l).map fun l => ⟨l, lockT, position, ⟨ct.2, i⟩⟩

/-- `to_place`, before the duplicates are removed -/
def toPlace : List SinglePlacement :=
  order.visit (entries m n threads .lock .after) ++ order.visit (entries m n threads .lock .before) ++
    order.visit (entries m n threads .unlock .after) ++ order.visit (entries m n threads .unlock .before)

/-- the two placements refer to the same instruction -/
def sameInstruction (p q : SinglePlacement) : Bool :=
  p.lock == q.lock && p.lockT == q.lockT && p.position == q.position &&
    ((p.position == .before && (stateAt threads p.location).lockBefore == (stateAt threads q.location).lockBefore) ||
      (p.position == .after && (stateAt threads p.location).lockAfter == (stateAt threads q.location).lockAfter))

/-- `remove_duplicates`: what is the same as an element that has been kept is erased -/
def removeDuplicates (l : List SinglePlacement) : List SinglePlacement :=
  l.foldl (fun kept p => if kept.any fun q => sameInstruction threads q p then kept else kept ++ [p]) []

/-- `Rewriter::InsertText` at one source location -/
def insertText {α : Type*} (text : List α) (new : α) (insertAfter : Bool) : List α :=
  if insertAfter then text ++ [new] else new :: text

/-- `print_with_locks`: the operations at one source location, in the order of the text -/
def printWithLocks (locksToPlace : List SinglePlacement) (position : PositionType) (source : ℕ) :
    List SinglePlacement :=
  let sorted := sort.sort locksToPlace
  let here := fun p : SinglePlacement => p.position = position && sourceOf threads position p.location = some source
  match position with
  | .before => (sorted.reverse.filter here).foldl (fun text p => insertText text p true) []
  | .after => (sorted.filter here).foldl (fun text p => insertText text p false) []

/-- the operation of a statement -/
def opOf : LockType → PlacedOp
  | .lock => .acquire
  | .unlock => .release

/-- the operations that the printed program executes at a position of a state -/
def text (position : PositionType) (x : Location) : List (PlacedOp × ℕ) :=
  match sourceOf threads position x with
  | none => []
  | some source =>
    (printWithLocks threads sort (removeDuplicates threads (toPlace m n threads order)) position source).map
      fun p => (opOf p.lockT, p.lock)

/-! ## The text at a source location -/

theorem foldl_insertText_after {α : Type*} (l text : List α) :
    l.foldl (fun text p => insertText text p true) text = text ++ l := by
  induction l generalizing text with
  | nil => simp
  | cons a l ih =>
    rw [List.foldl_cons, ih]
    simp [insertText]

theorem foldl_insertText_before {α : Type*} (l text : List α) :
    l.foldl (fun text p => insertText text p false) text = l.reverse ++ text := by
  induction l generalizing text with
  | nil => simp
  | cons a l ih =>
    rw [List.foldl_cons, ih]
    simp [insertText]

/-- before an instruction the last lock is inserted first and the others after it, after an instruction the first lock
is inserted first and the others before it: the order is the same -/
theorem printWithLocks_eq (locksToPlace : List SinglePlacement) (position : PositionType) (source : ℕ) :
    printWithLocks threads sort locksToPlace position source = ((sort.sort locksToPlace).filter fun p =>
      p.position = position && sourceOf threads position p.location = some source).reverse := by
  cases position with
  | before => rw [printWithLocks, foldl_insertText_after, List.nil_append, List.filter_reverse]
  | after => rw [printWithLocks, foldl_insertText_before, List.append_nil]

/-! ## Duplicates -/

theorem sameInstruction_iff {p q : SinglePlacement} : sameInstruction threads p q = true ↔
    p.lock = q.lock ∧ p.lockT = q.lockT ∧ p.position = q.position ∧
      sourceOf threads p.position p.location = sourceOf threads q.position q.location := by
  obtain ⟨l, ty, pos, x⟩ := p
  obtain ⟨l', ty', pos', x'⟩ := q
  cases pos <;> cases pos' <;> simp [sameInstruction, sourceOf, and_assoc]

theorem removeDuplicates_concat (l : List SinglePlacement) (p : SinglePlacement) :
    removeDuplicates threads (l ++ [p]) =
      if (removeDuplicates threads l).any fun q => sameInstruction threads q p then removeDuplicates threads l
      else removeDuplicates threads l ++ [p] := by
  simp [removeDuplicates]

theorem mem_of_mem_removeDuplicates {l : List SinglePlacement} {p : SinglePlacement}
    (hp : p ∈ removeDuplicates threads l) : p ∈ l := by
  induction l using List.reverseRecOn with
  | nil => exact hp
  | append_singleton l q ih =>
    rw [removeDuplicates_concat] at hp
    split_ifs at hp
    · exact List.mem_append_left _ (ih hp)
    · rcases List.mem_append.1 hp with hp | hp
      · exact List.mem_append_left _ (ih hp)
      · exact List.mem_append_right _ hp

/-- of the same placements one is kept -/
theorem exists_kept {l : List SinglePlacement} {p : SinglePlacement} (hp : p ∈ l) :
    ∃ q ∈ removeDuplicates threads l, sameInstruction threads q p = true := by
  induction l using List.reverseRecOn with
  | nil => exact absurd hp List.not_mem_nil
  | append_singleton l a ih =>
    rw [removeDuplicates_concat]
    rcases List.mem_append.1 hp with hp | hp
    · obtain ⟨q, hq, hsame⟩ := ih hp
      refine ⟨q, ?_, hsame⟩
      split_ifs
      · exact hq
      · exact List.mem_append_left _ hq
    · obtain rfl := List.mem_singleton.1 hp
      by_cases hany : ((removeDuplicates threads l).any fun q => sameInstruction threads q p) = true
      · rw [if_pos hany]
        obtain ⟨q, hq, hsame⟩ := List.any_eq_true.1 hany
        exact ⟨q, hq, hsame⟩
      · rw [if_neg hany]
        exact ⟨p, List.mem_append_right _ (List.mem_singleton_self p),
          (sameInstruction_iff threads).2 ⟨rfl, rfl, rfl, rfl⟩⟩

/-- and no more -/
theorem removeDuplicates_pairwise (l : List SinglePlacement) :
    (removeDuplicates threads l).Pairwise fun p q => sameInstruction threads p q = false := by
  induction l using List.reverseRecOn with
  | nil => exact .nil
  | append_singleton l a ih =>
    rw [removeDuplicates_concat]
    split_ifs with hany
    · exact ih
    · rw [List.pairwise_append]
      refine ⟨ih, List.pairwise_singleton _ _, fun p hp q hq => ?_⟩
      rw [List.mem_singleton.1 hq]
      by_contra hne
      exact hany (List.any_eq_true.2 ⟨p, hp, by simpa using hne⟩)

/-! ## One source location -/

variable {m n threads} {locks : List ℕ} {ord : HashOrder} {c c' : AbstractCfg} {t t' i i' l source : ℕ}

theorem stateAt_eq (ht : threads[t]? = some c) (i : ℕ) : stateAt threads ⟨t, i⟩ = c.getState i := by
  rw [stateAt, List.getD_eq_getElem?_getD, ht, Option.getD_some]

theorem mem_entries {p : SinglePlacement} {lockT : LockType} {position : PositionType} :
    p ∈ entries m n threads lockT position ↔ p.lock < n ∧ p.lockT = lockT ∧ p.position = position ∧
      (∃ c, threads[p.location.thread]? = some c ∧ p.location.state ∈ stateIds c) ∧
      placed m lockT position p.location p.lock = true := by
  obtain ⟨l, ty, pos, ⟨t, i⟩⟩ := p
  simp only [entries, List.mem_flatMap, List.mem_map, List.mem_filter, List.mem_range, Prod.exists,
    List.mem_zipIdx_iff_getElem?, SinglePlacement.mk.injEq, Location.mk.injEq]
  constructor
  · rintro ⟨c, t', hc, i', hi, l', ⟨hl, hp⟩, rfl, rfl, rfl, rfl, rfl⟩
    exact ⟨hl, rfl, rfl, ⟨c, hc, hi⟩, hp⟩
  · rintro ⟨hl, rfl, rfl, ⟨c, hc, hi⟩, hp⟩
    exact ⟨c, t, hc, i, hi, l, ⟨hl, hp⟩, rfl, rfl, rfl, rfl, rfl⟩

theorem mem_toPlace {p : SinglePlacement} :
    p ∈ toPlace m n threads order ↔ p ∈ entries m n threads p.lockT p.position := by
  have hvisit : ∀ l, p ∈ order.visit l ↔ p ∈ l := fun l => (order.perm l).mem_iff
  have hother : ∀ lockT position, p ∈ entries m n threads lockT position → p.lockT = lockT ∧ p.position = position := by
    intro lockT position hp
    exact ⟨(mem_entries.1 hp).2.1, (mem_entries.1 hp).2.2.1⟩
  simp only [toPlace, List.mem_append, hvisit]
  constructor
  · rintro (((hp | hp) | hp) | hp) <;>
    · obtain ⟨h1, h2⟩ := hother _ _ hp
      rw [h1, h2]
      exact hp
  · intro hp
    cases h1 : p.lockT <;> cases h2 : p.position <;> rw [h1, h2] at hp <;> simp [hp]

/-- states with the same source location have the same operations there -/
theorem placed_same (h : addConstraints m locks ord threads = true) (ht : threads[t]? = some c) (hi : i ∈ stateIds c)
    (ht' : threads[t']? = some c') (hi' : i' ∈ stateIds c') (hl : l ∈ locks) (lockT : LockType)
    (position : PositionType) (hs : sourceOf threads position ⟨t, i⟩ = some source)
    (hs' : sourceOf threads position ⟨t', i'⟩ = some source) :
    placed m lockT position ⟨t, i⟩ l = placed m lockT position ⟨t', i'⟩ l := by
  have hat : ∀ (f : State → Option ℕ) (lock unlock : Location → ℕ → Bool), sameAt locks threads f lock unlock = true →
      f (c.getState i) = some source → f (c'.getState i') = some source →
      lock ⟨t, i⟩ l = lock ⟨t', i'⟩ l ∧ unlock ⟨t, i⟩ l = unlock ⟨t', i'⟩ l := by
    intro f lock unlock hsame hf hf'
    have hsource : source ∈ sources threads f :=
      List.mem_flatMap.2 ⟨c, List.mem_of_getElem? ht, List.mem_filterMap.2 ⟨i, hi, hf⟩⟩
    have hpos : ∀ {t i c}, threads[t]? = some c → i ∈ stateIds c → f (c.getState i) = some source →
        (⟨t, i⟩ : Location) ∈ positionsOf threads f source := by
      intro t i c ht hi hf
      exact List.mem_flatMap.2 ⟨(c, t), List.mem_zipIdx_iff_getElem?.2 ht,
        List.mem_map.2 ⟨i, List.mem_filter.2 ⟨hi, by simpa using hf⟩, rfl⟩⟩
    have hone := hpos ht hi hf
    have htwo := hpos ht' hi' hf'
    have hall := List.all_eq_true.1 hsame source hsource
    cases hp : positionsOf threads f source with
    | nil =>
      rw [hp] at hone
      exact absurd hone List.not_mem_nil
    | cons first rest =>
      rw [hp] at hall hone htwo
      have hfirst : ∀ x ∈ first :: rest, lock first l = lock x l ∧ unlock first l = unlock x l := by
        intro x hx
        rcases List.mem_cons.1 hx with rfl | hx
        · exact ⟨rfl, rfl⟩
        · simpa using List.all_eq_true.1 (List.all_eq_true.1 hall l hl) x hx
      exact ⟨(hfirst _ hone).1.symm.trans (hfirst _ htwo).1, (hfirst _ hone).2.symm.trans (hfirst _ htwo).2⟩
  simp only [addConstraints, lockSameinstr, Bool.and_eq_true] at h
  obtain ⟨-, hafter, hbefore⟩ := h
  cases position with
  | before =>
    simp only [sourceOf, stateAt_eq ht, stateAt_eq ht'] at hs hs'
    obtain ⟨h1, h2⟩ := hat State.lockBefore _ _ hbefore hs hs'
    cases lockT with
    | lock => exact h1
    | unlock => exact h2
  | after =>
    simp only [sourceOf, stateAt_eq ht, stateAt_eq ht'] at hs hs'
    obtain ⟨h1, h2⟩ := hat State.lockAfter _ _ hafter hs hs'
    cases lockT with
    | lock => exact h1
    | unlock => exact h2

/-- no operation is placed at a position without source location, and no lock is both taken and released at one -/
theorem placed_source (h : addConstraints m locks ord threads = true) (ht : threads[t]? = some c) (hi : i ∈ stateIds c)
    (hl : l ∈ locks) (position : PositionType) :
    (sourceOf threads position ⟨t, i⟩ = none → ∀ lockT, placed m lockT position ⟨t, i⟩ l = false) ∧
      (placed m .lock position ⟨t, i⟩ l = true → placed m .unlock position ⟨t, i⟩ l = false) := by
  have hat := constraints_at h ht hi hl
  simp only [lockConsistancyAt, consLoc, consBasic, Bool.and_eq_true] at hat
  obtain ⟨⟨⟨⟨⟨⟨⟨hlb, hla⟩, hbA, hbB⟩, -⟩, -⟩, -⟩, -⟩, -⟩ := hat
  cases position with
  | before =>
    refine ⟨fun hnone lockT => ?_, fun hlock => ?_⟩
    · rw [sourceOf, stateAt_eq ht] at hnone
      cases lockT <;> simp_all [placed]
    · simp_all [placed]
  | after =>
    refine ⟨fun hnone lockT => ?_, fun hlock => ?_⟩
    · rw [sourceOf, stateAt_eq ht] at hnone
      cases lockT <;> simp_all [placed]
    · simp_all [placed]

/-! ## The text at a state -/

/-- what stands at a source location: the placements that are kept there -/
theorem mem_printWithLocks {locksToPlace : List SinglePlacement} {position : PositionType} {p : SinglePlacement} :
    p ∈ printWithLocks threads sort locksToPlace position source ↔
      p ∈ locksToPlace ∧ p.position = position ∧ sourceOf threads position p.location = some source := by
  rw [printWithLocks_eq, List.mem_reverse, List.mem_filter, (sort.perm _).mem_iff, Bool.and_eq_true, decide_eq_true_eq,
    decide_eq_true_eq]

theorem opOf_injective {a b : LockType} (h : opOf a = opOf b) : a = b := by
  cases a <;> cases b <;> first | rfl | cases h

/-- **The text at a state has the operations that are placed there.** -/
theorem mem_text (h : addConstraints m (List.range n) ord threads = true) (ht : threads[t]? = some c)
    (hi : i ∈ stateIds c) (position : PositionType) (lockT : LockType) :
    (opOf lockT, l) ∈ text m n threads order sort position ⟨t, i⟩ ↔
      l < n ∧ placed m lockT position ⟨t, i⟩ l = true := by
  have hrange : ∀ {l}, l < n → l ∈ List.range n := List.mem_range.2
  cases hs : sourceOf threads position ⟨t, i⟩ with
  | none =>
    have hnil : text m n threads order sort position ⟨t, i⟩ = [] := by rw [text, hs]
    rw [hnil]
    constructor
    · exact fun hmem => absurd hmem List.not_mem_nil
    · rintro ⟨hl, hp⟩
      rw [(placed_source h ht hi (hrange hl) position).1 hs] at hp
      exact absurd hp (by simp)
  | some source =>
    have htext : text m n threads order sort position ⟨t, i⟩ =
        (printWithLocks threads sort (removeDuplicates threads (toPlace m n threads order)) position source).map
          fun p => (opOf p.lockT, p.lock) := by rw [text, hs]
    rw [htext, List.mem_map]
    constructor
    · rintro ⟨p, hp, heq⟩
      obtain ⟨hkept, hpos, hsp⟩ := (mem_printWithLocks sort).1 hp
      have hentry := (mem_toPlace order).1 (mem_of_mem_removeDuplicates threads hkept)
      obtain ⟨hlt, -, -, ⟨c', hc', hi'⟩, hplaced⟩ := mem_entries.1 hentry
      simp only [Prod.mk.injEq] at heq
      obtain ⟨hop, rfl⟩ := heq
      rw [← opOf_injective hop, placed_same h ht hi hc' hi' (hrange hlt) _ position hs hsp, ← hpos]
      exact ⟨hlt, hplaced⟩
    · rintro ⟨hl, hp⟩
      have hentry : (⟨l, lockT, position, ⟨t, i⟩⟩ : SinglePlacement) ∈ toPlace m n threads order :=
        (mem_toPlace order).2 (mem_entries.2 ⟨hl, rfl, rfl, ⟨c, ht, hi⟩, hp⟩)
      obtain ⟨q, hq, hsame⟩ := exists_kept threads hentry
      obtain ⟨hlock, htype, hpos, hsource⟩ := (sameInstruction_iff threads).1 hsame
      simp only at hlock htype hpos hsource
      refine ⟨q, (mem_printWithLocks sort).2 ⟨hq, hpos, ?_⟩, by rw [hlock, htype]⟩
      rw [← hpos, hsource]
      exact hs

/-- two placements of one lock at one source location are the same -/
theorem lock_injective (h : addConstraints m (List.range n) ord threads = true) {position : PositionType}
    {p q : SinglePlacement} (hp : p ∈ toPlace m n threads order) (hq : q ∈ toPlace m n threads order)
    (hpp : p.position = position) (hqp : q.position = position)
    (hps : sourceOf threads position p.location = some source)
    (hqs : sourceOf threads position q.location = some source) (hlock : p.lock = q.lock) :
    sameInstruction threads p q = true := by
  obtain ⟨hlt, -, -, ⟨c, hc, hi⟩, hplaced⟩ := mem_entries.1 ((mem_toPlace order).1 hp)
  obtain ⟨-, -, -, ⟨c', hc', hi'⟩, hplaced'⟩ := mem_entries.1 ((mem_toPlace order).1 hq)
  have hrange := List.mem_range.2 hlt
  rw [hpp] at hplaced
  rw [hqp, ← hlock, ← placed_same h hc hi hc' hi' hrange _ position hps hqs] at hplaced'
  have hexcl := (placed_source h hc hi hrange position).2
  have htype : p.lockT = q.lockT := by
    by_contra hne
    generalize p.lockT = a at hplaced hne
    generalize q.lockT = b at hplaced' hne
    cases a with
    | lock =>
      cases b with
      | lock => exact hne rfl
      | unlock =>
        rw [hexcl hplaced] at hplaced'
        exact absurd hplaced' (by simp)
    | unlock =>
      cases b with
      | lock =>
        rw [hexcl hplaced'] at hplaced
        exact absurd hplaced (by simp)
      | unlock => exact hne rfl
  exact (sameInstruction_iff threads).2 ⟨hlock, htype, hpp.trans hqp.symm, by rw [hpp, hqp, hps, hqs]⟩

/-- **It has them in descending order of the locks.** -/
theorem text_sorted (h : addConstraints m (List.range n) ord threads = true) (position : PositionType) (x : Location) :
    (text m n threads order sort position x).Pairwise fun a b => b.2 < a.2 := by
  unfold text
  split
  · exact .nil
  · rename_i source hs
    rw [List.pairwise_map]
    set kept := removeDuplicates threads (toPlace m n threads order) with hkept
    have hdistinct : (sort.sort kept).Pairwise fun p q => sameInstruction threads p q = false := by
      refine ((sort.perm kept).pairwise_iff fun {a b} hab => ?_).2 (removeDuplicates_pairwise threads _)
      have hsymm : sameInstruction threads a b = sameInstruction threads b a := by
        rw [Bool.eq_iff_iff, sameInstruction_iff, sameInstruction_iff]
        simp only [eq_comm]
      rw [← hsymm, hab]
    have hboth := List.Pairwise.and (sort.sorted kept) hdistinct
    rw [printWithLocks_eq, List.pairwise_reverse]
    refine (hboth.filter _).imp_of_mem fun {p q} hp hq hpq => ?_
    obtain ⟨hle, hne⟩ := hpq
    rw [List.mem_filter, (sort.perm _).mem_iff, Bool.and_eq_true, decide_eq_true_eq, decide_eq_true_eq] at hp hq
    rcases hle.lt_or_eq with hlt | heq
    · exact hlt
    · have hsame := lock_injective order h (mem_of_mem_removeDuplicates threads hp.1)
        (mem_of_mem_removeDuplicates threads hq.1) hp.2.1 hq.2.1 hp.2.2 hq.2.2 heq
      rw [hsame] at hne
      exact absurd hne (by simp)

end PlaceLocks

end Liss
