/-
Orderings of the locations of a trace: assignments of different integers that keep the order of each thread.

- `KeepsThreadOrder`: such an assignment; `reordered` and `word`: the locations and symbols in its order;
- `threaded_reordered`: each thread sees its own symbols in the order of the trace;
- `violatesLock_word`: a lock is violated in the word iff a location of another list comes, in the ordering, between two
  steps of a thread that are neighbours in a list.
-/
import Liss.Abstraction.Forbidden
import Liss.Synthesis.Reorderings

namespace Liss.Synthesis

variable {w : List Symbol}

/-! ## Locations -/

theorem mem_splitTrace {l : TraceLocation} : l ∈ splitTrace w ↔ w[l.position]? = some l.symbol := by
  simp only [splitTrace, List.mem_mapIdx]
  constructor
  · rintro ⟨i, hi, rfl⟩
    simp [hi]
  · intro h
    obtain ⟨hi, hs⟩ := List.getElem?_eq_some_iff.1 h
    exact ⟨l.position, hi, by rw [hs]⟩

theorem position_lt {l : TraceLocation} (h : l ∈ splitTrace w) : l.position < w.length :=
  (List.getElem?_eq_some_iff.1 (mem_splitTrace.1 h)).1

/-- a location is known by its position -/
theorem eq_of_position {l l' : TraceLocation} (h : l ∈ splitTrace w) (h' : l' ∈ splitTrace w)
    (hp : l.position = l'.position) : l = l' := by
  rw [mem_splitTrace] at h h'
  rw [hp, h'] at h
  cases l
  cases l'
  simp_all

theorem splitTrace_increasing (w : List Symbol) : Increasing TraceLocation.position (splitTrace w) := by
  rw [Increasing, List.pairwise_iff_getElem]
  intro i j hi hj hij
  simpa [splitTrace] using hij

theorem mem_threadedTrace {l : TraceLocation} {t : ℕ} :
    l ∈ threadedTrace w t ↔ l ∈ splitTrace w ∧ l.threadId = t := by simp [threadedTrace]

theorem mem_steps {t : ℕ} {pl : TraceLocation × TraceLocation} :
    pl ∈ steps w t ↔ [pl.1, pl.2] <:+: threadedTrace w t := by rw [steps, pair_infix_iff_zip]

/-! ## Orderings -/

/-- an ordering of the locations that keeps the order of each thread -/
structure KeepsThreadOrder (w : List Symbol) (a : Assignment) : Prop where
  injective : ∀ l ∈ splitTrace w, ∀ l' ∈ splitTrace w, a l.position = a l'.position → l = l'
  order : ∀ l ∈ splitTrace w, ∀ l' ∈ splitTrace w, l.threadId = l'.threadId → l.position < l'.position →
    a l.position < a l'.position

/-- the locations in the order of their values -/
def reordered (w : List Symbol) (a : Assignment) : List TraceLocation :=
  orderBy (fun l => a l.position) (splitTrace w)

/-- the reordered trace -/
def word (w : List Symbol) (a : Assignment) : List Symbol := (reordered w a).map TraceLocation.symbol

variable {a : Assignment}

theorem mem_reordered {l : TraceLocation} : l ∈ reordered w a ↔ l ∈ splitTrace w := mem_orderBy

theorem mem_word {s : Symbol} : s ∈ word w a ↔ s ∈ w := by
  simp only [word, List.mem_map, mem_reordered, mem_splitTrace]
  constructor
  · rintro ⟨l, h, rfl⟩
    exact List.mem_of_getElem? h
  · intro h
    obtain ⟨i, hi⟩ := List.mem_iff_getElem?.1 h
    exact ⟨⟨s, i⟩, hi, rfl⟩

/-- different values for different locations -/
def Separates (w : List Symbol) (a : Assignment) : Prop :=
  ∀ l ∈ splitTrace w, ∀ l' ∈ splitTrace w, a l.position = a l'.position → l = l'

theorem KeepsThreadOrder.separates (h : KeepsThreadOrder w a) : Separates w a := h.injective

theorem Separates.pairwise_ne (h : Separates w a) :
    (splitTrace w).Pairwise fun l l' => a l.position ≠ a l'.position := by
  refine ((splitTrace_increasing w).imp_of_mem ?_)
  intro l l' hl hl' hlt heq
  exact absurd (congrArg TraceLocation.position (h l hl l' hl' heq)) (Nat.ne_of_lt hlt)

theorem Separates.increasing (h : Separates w a) :
    Increasing (fun l : TraceLocation => a l.position) (reordered w a) := orderBy_increasing h.pairwise_ne

theorem KeepsThreadOrder.increasing (h : KeepsThreadOrder w a) :
    Increasing (fun l : TraceLocation => a l.position) (reordered w a) := h.separates.increasing

theorem KeepsThreadOrder.threaded (h : KeepsThreadOrder w a) (t : ℕ) :
    Increasing (fun l : TraceLocation => a l.position) (threadedTrace w t) := by
  refine ((splitTrace_increasing w).filter _).imp_of_mem ?_
  intro l l' hl hl' hlt
  obtain ⟨hl, ht⟩ := mem_threadedTrace.1 hl
  obtain ⟨hl', ht'⟩ := mem_threadedTrace.1 hl'
  exact h.order l hl l' hl' (ht.trans ht'.symm) hlt

/-- each thread sees its own locations in the order of the trace -/
theorem KeepsThreadOrder.threaded_reordered (h : KeepsThreadOrder w a) (t : ℕ) :
    (reordered w a).filter (fun l => l.threadId = t) = threadedTrace w t :=
  filter_orderBy h.separates.pairwise_ne (h.threaded t)

/-- two steps of a thread in a row, and what comes between them -/
theorem KeepsThreadOrder.between (h : KeepsThreadOrder w a) {t : ℕ} {l l' : TraceLocation}
    (hll : [l, l'] <:+: threadedTrace w t) :
    ∃ pre mid post, reordered w a = pre ++ l :: (mid ++ l' :: post) ∧ l.threadId = t ∧ l'.threadId = t ∧
      (∀ s ∈ mid, s.threadId ≠ t) ∧
      ∀ s, s ∈ mid ↔ s ∈ splitTrace w ∧ a l.position < a s.position ∧ a s.position < a l'.position := by
  rw [← h.threaded_reordered t, pair_infix_filter] at hll
  obtain ⟨pre, mid, post, heq, ht, ht', hmid⟩ := hll
  refine ⟨pre, mid, post, heq, by simpa using ht, by simpa using ht', fun s hs => by simpa using hmid s hs, fun s => ?_⟩
  have hinc := h.increasing
  rw [heq] at hinc
  rw [← mem_reordered (a := a), heq]
  exact mem_between hinc

/-- the threads of the trace are those of the program -/
def OfThreads (threads : ℕ) (w : List Symbol) : Prop := ∀ s ∈ w, s.threadId < threads

theorem OfThreads.location {threads : ℕ} (h : OfThreads threads w) {l : TraceLocation} (hl : l ∈ splitTrace w) :
    l.threadId < threads := h _ (List.mem_of_getElem? (mem_splitTrace.1 hl))

/-- `thread_order` and `distinct` ask for an ordering -/
theorem keepsThreadOrder_of {threads : ℕ} (hw : OfThreads threads w) (ho : threadOrder threads w a = true)
    (hd : distinct w a = true) : KeepsThreadOrder w a := by
  rw [distinct, decide_eq_true_eq] at hd
  constructor
  · intro l hl l' hl' heq
    by_contra hne
    have hpos : l.position ≠ l'.position := fun h => hne (eq_of_position hl hl' h)
    have hmem : ∀ r ∈ splitTrace w, r.position ∈ List.range (w.length + 1) := fun r hr =>
      List.mem_range.2 (Nat.lt_succ_of_lt (position_lt hr))
    have hsymm : Std.Symm fun i j : ℕ => a i ≠ a j := ⟨fun _ _ => Ne.symm⟩
    exact hd.forall (hmem l hl) (hmem l' hl') hpos heq
  · intro l hl l' hl' ht hlt
    simp only [threadOrder, List.all_eq_true, List.mem_range, Bool.and_eq_true, decide_eq_true_eq] at ho
    have hsteps := (ho l.threadId (hw.location hl)).1
    have hchain : (threadedTrace w l.threadId).IsChain fun x y => a x.position < a y.position := by
      rw [List.isChain_iff_forall_rel_of_append_cons_cons]
      intro x y l1 l2 heq
      exact hsteps (x, y) (mem_steps.2 ⟨l1, l2, by rw [heq]; simp⟩)
    have htrans : IsTrans TraceLocation fun x y => a x.position < a y.position := ⟨fun _ _ _ => lt_trans⟩
    have hinc : Increasing (fun l : TraceLocation => a l.position) (threadedTrace w l.threadId) :=
      List.isChain_iff_pairwise.1 hchain
    have hpos : Increasing TraceLocation.position (threadedTrace w l.threadId) := (splitTrace_increasing w).filter _
    exact (lt_iff_of_increasing hpos hinc (mem_threadedTrace.2 ⟨hl, rfl⟩) (mem_threadedTrace.2 ⟨hl', ht.symm⟩)).1 hlt

/-- the final location comes last -/
theorem lt_finalState {threads : ℕ} (hw : OfThreads threads w) (ho : threadOrder threads w a = true)
    (hd : distinct w a = true) {l : TraceLocation} (hl : l ∈ splitTrace w) : a l.position < a (finalState w) := by
  have hk := keepsThreadOrder_of hw ho hd
  simp only [threadOrder, List.all_eq_true, List.mem_range, Bool.and_eq_true, decide_eq_true_eq] at ho
  have hlast := (ho l.threadId (hw.location hl)).2
  have hmem : l ∈ threadedTrace w l.threadId := mem_threadedTrace.2 ⟨hl, rfl⟩
  obtain ⟨init, z, heq⟩ := (List.eq_nil_or_concat (threadedTrace w l.threadId)).resolve_left (List.ne_nil_of_mem hmem)
  rw [List.concat_eq_append] at heq
  rw [heq] at hlast hmem
  have hz : a z.position < a (finalState w) := by simpa using hlast
  rcases List.mem_append.1 hmem with hi | hi
  · have hinc := hk.threaded l.threadId
    rw [heq, Increasing, List.pairwise_append] at hinc
    exact (hinc.2.2 l hi z (by simp)).trans hz
  · rw [List.mem_singleton.1 hi]
    exact hz

theorem map_symbol_splitTrace (w : List Symbol) : (splitTrace w).map TraceLocation.symbol = w := by
  refine List.ext_getElem (by simp [splitTrace]) fun i h1 h2 => ?_
  simp [splitTrace]

/-- the trace itself is the word of the ordering by position -/
theorem reordered_position (w : List Symbol) : reordered w (fun i => (i : ℤ)) = splitTrace w :=
  List.Pairwise.insertionSort_eq ((splitTrace_increasing w).imp fun hlt => Int.ofNat_le.2 (Nat.le_of_lt hlt))

theorem word_position (w : List Symbol) : word w (fun i => (i : ℤ)) = w ∧ KeepsThreadOrder w fun i => (i : ℤ) := by
  refine ⟨by rw [word, reordered_position, map_symbol_splitTrace], ?_⟩
  exact ⟨fun l hl l' hl' heq => eq_of_position hl hl' (by exact_mod_cast heq), fun l _ l' _ _ hlt => by
    exact_mod_cast hlt⟩

/-! ## Violations in the reordered word -/

/-- lists without epsilon symbols -/
def NoEpsilon (lock : LockLists) : Prop := ∀ it ∈ lock, ∀ s ∈ it, s.isRealEpsilon = false

theorem noEpsilon_of_event {lock : LockLists} (h : ∀ it ∈ lock, ∀ s ∈ it, isEvent s = true) : NoEpsilon lock := by
  intro it hit s hs
  have := h it hit s hs
  simp only [isEvent, Bool.not_eq_true', Bool.or_eq_false_iff] at this
  exact this.1

theorem mem_neighbours {it : LockList} (h : ∀ s ∈ it, s.isRealEpsilon = false) {uv : Symbol × Symbol} :
    uv ∈ ConcurrentAutomaton.neighbours it ↔ [uv.1, uv.2] <:+: it := by
  have hf : it.filter (fun sy => !sy.isRealEpsilon) = it := List.filter_eq_self.2 fun s hs => by simp [h s hs]
  rw [ConcurrentAutomaton.neighbours, hf, pair_infix_iff_zip]

theorem frontThread_cons (x : Symbol) (it : LockList) :
    ConcurrentAutomaton.frontThread (x :: it) = some x.threadId := rfl

theorem threadId_of_front {it : LockList} (h : ∀ x ∈ it, ∀ y ∈ it, x.threadId = y.threadId) {x : Symbol} (hx : x ∈ it) :
    ConcurrentAutomaton.frontThread it = some x.threadId := by
  cases it with
  | nil => simp at hx
  | cons y it => rw [frontThread_cons, h y List.mem_cons_self x hx]

/-- **When a lock is violated in a reordered word**: a location of another list comes between two steps of a thread that
are neighbours in a list. -/
theorem violatesLock_word (h : KeepsThreadOrder w a) {lock : LockLists} (hne : NoEpsilon lock) :
    ViolatesLock lock (word w a) ↔
      ∃ t l l', [l, l'] <:+: threadedTrace w t ∧ ∃ it ∈ lock, ∃ u v, [u, v] <:+: it ∧
        u.equals l.symbol = true ∧ v.equals l'.symbol = true ∧
        ∃ s ∈ splitTrace w, a l.position < a s.position ∧ a s.position < a l'.position ∧
          ∃ it2 ∈ lock, ConcurrentAutomaton.frontThread it ≠ ConcurrentAutomaton.frontThread it2 ∧
            s.symbol.isIn it2 = true := by
  constructor
  · rintro ⟨pre, x, b, y, post, heq, hxy, hb, it, hit, ⟨u, v⟩, huv, hu, hv, s, hs, it2, hit2, hne2, hin⟩
    obtain ⟨pre', rest, hre, rfl, hrest⟩ := List.map_eq_append_iff.1 heq
    obtain ⟨l, rest', rfl, rfl, hrest'⟩ := List.map_eq_cons_iff.1 hrest
    obtain ⟨mid, rest'', rfl, rfl, hrest''⟩ := List.map_eq_append_iff.1 hrest'
    obtain ⟨l', post', rfl, rfl, rfl⟩ := List.map_eq_cons_iff.1 hrest''
    obtain ⟨s', hs', rfl⟩ := List.mem_map.1 hs
    have hinc := h.increasing
    rw [hre] at hinc
    obtain ⟨hmem, hlt, hgt⟩ := (mem_between hinc).1 hs'
    refine ⟨l'.threadId, l, l', ?_, it, hit, u, v, (mem_neighbours (hne it hit)).1 huv, hu, hv, s', ?_, hlt, hgt, it2,
      hit2, hne2, hin⟩
    · rw [← h.threaded_reordered, pair_infix_filter]
      refine ⟨pre', mid, post', hre, ?_, by simp, fun r hr => ?_⟩
      · exact decide_eq_true hxy
      · exact decide_eq_false (hb _ (List.mem_map_of_mem hr))
    · rw [← hre] at hmem
      exact mem_reordered.1 hmem
  · rintro ⟨t, l, l', hll, it, hit, u, v, huv, hu, hv, s, hs, hlt, hgt, it2, hit2, hne2, hin⟩
    obtain ⟨pre, mid, post, heq, ht, ht', hmid, hbetween⟩ := h.between hll
    refine ⟨pre.map TraceLocation.symbol, l.symbol, mid.map TraceLocation.symbol, l'.symbol,
      post.map TraceLocation.symbol, by simp [word, heq], ht.trans ht'.symm, fun r hr => ?_, it, hit, (u, v),
      (mem_neighbours (hne it hit)).2 huv, hu, hv, s.symbol, List.mem_map_of_mem ((hbetween s).2 ⟨hs, hlt, hgt⟩), it2,
      hit2, hne2, hin⟩
    obtain ⟨r', hr', rfl⟩ := List.mem_map.1 hr
    intro heq'
    exact hmid r' hr' (heq'.trans ht')

end Liss.Synthesis
