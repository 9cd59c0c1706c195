/-
`find_order`, `find_other_traces`, `find_order2` and `wait_notify_order` of `synthesis/reorderings.cpp`: the class of an
ordering, as a conjunction of constraints.

The locations are sorted by their values in the model. The final location has no symbol, so neither loop uses it; all
values are different, so the sorting has only one result. A location whose value does not fit an `int` is left out:
`get_int` fails. The order of waits and notifies is asked of the model itself, without `get_int`.

- `findOrder_lt`: an ordering in the class of another one orders the conflicting accesses that are read in the same way;
- `class_iff`, `class_iff_agreeOn`: the orderings of a class, without and with the order of waits and notifies;
- `conditionals_of_findOrder`: with it, the class fixes the truth value of `conditionals`;
- `Captured`: all conflicting accesses are in the order that follows from those read and from the order of each thread;
- `findOrder_class`: the class is the right one iff the ordering is captured;
- `makeConj_findOrder_congr`: an ordering is in the class of every one that sorts the locations in the same way.
-/
import Liss.Synthesis.Orderings

namespace Liss.Synthesis

/-- `find_other_traces`: the next access of each thread with one of the operations. `seen` is `threads_after`. -/
def findOtherTraces (operation : List OpClass) (x : TraceLocation) : List TraceLocation → List ℕ → Conj ConstraintAtom
  | [], _ => []
  | y :: rest, seen =>
    if y.threadId ∉ seen ∧ y.symbol.var = x.symbol.var ∧ y.symbol.operation ∈ operation then
      ⟨x, y, false⟩ :: findOtherTraces operation x rest (y.threadId :: seen)
    else findOtherTraces operation x rest seen

/-- the operations that the main loop of `find_order` looks for after an access -/
def conflictingOperations : OpClass → List OpClass
  | .write => [.read, .write]
  | .read => [.write]
  | _ => []

/-- the main loop of `find_order`, over the sorted locations -/
def orderFrom : List TraceLocation → Conj ConstraintAtom
  | [] => []
  | x :: rest => findOtherTraces (conflictingOperations x.symbol.operation) x rest [] ++ orderFrom rest

/-- `find_order2` -/
def findOrder2 (model : Assignment) (one two : List TraceLocation) : Conj ConstraintAtom :=
  one.flatMap fun it => two.filterMap fun it2 =>
    if it.threadId ≠ it2.threadId then
      some (if model it.position < model it2.position then ⟨it, it2, false⟩ else ⟨it2, it, false⟩)
    else none

/-- `wait_notify_order` -/
def waitNotifyOrder (ids : Identifiers) (threads : ℕ) (trace : List Symbol) (model : Assignment) :
    Conj ConstraintAtom :=
  (List.range ids.noConditionals).flatMap fun i =>
    findOrder2 model (waits threads trace i) (resets threads trace i) ++
      findOrder2 model (waits threads trace i) (notifies threads trace i) ++
        findOrder2 model (resets threads trace i) (notifies threads trace i)

/-- `expr::get_int` of a numeral: it fails where the value does not fit an `int` -/
def getInt (value : ℤ) : Option ℤ := if -2 ^ 31 ≤ value ∧ value < 2 ^ 31 then some value else none

/-- the vector `order` after it has been sorted -/
def order (trace : List Symbol) (model : Assignment) : List TraceLocation :=
  orderBy (fun l => model l.position) ((splitTrace trace).filter fun l => (getInt (model l.position)).isSome)

/-- `find_order` -/
def findOrder (ids : Identifiers) (threads : ℕ) (trace : List Symbol) (model : Assignment) (waitNotify : Bool) :
    Conj ConstraintAtom :=
  orderFrom (order trace model) ++ if waitNotify then waitNotifyOrder ids threads trace model else []

variable {ids : Identifiers} {threads : ℕ} {w : List Symbol} {m p : Assignment} {waitNotify : Bool}

/-! ## The constraints it makes -/

theorem mem_findOtherTraces {operation : List OpClass} {x : TraceLocation} {rest : List TraceLocation} {seen : List ℕ}
    {ca : ConstraintAtom} (h : ca ∈ findOtherTraces operation x rest seen) :
    ca.before = x ∧ ca.after ∈ rest ∧ ca.after.symbol.var = x.symbol.var ∧ ca.after.symbol.operation ∈ operation := by
  induction rest generalizing seen with
  | nil => simp [findOtherTraces] at h
  | cons y rest ih =>
    rw [findOtherTraces] at h
    split_ifs at h with hy
    · rcases List.mem_cons.1 h with rfl | h
      · exact ⟨rfl, List.mem_cons_self, hy.2⟩
      · exact ⟨(ih h).1, List.mem_cons_of_mem _ (ih h).2.1, (ih h).2.2⟩
    · exact ⟨(ih h).1, List.mem_cons_of_mem _ (ih h).2.1, (ih h).2.2⟩

/-- an access of a thread that is still looked for: the constraint is about it or about an earlier one of the thread -/
theorem exists_findOtherTraces {operation : List OpClass} {x y : TraceLocation} {rest : List TraceLocation}
    {seen : List ℕ} (hinc : Increasing (fun l : TraceLocation => m l.position) rest) (hy : y ∈ rest)
    (hs : y.threadId ∉ seen) (hvar : y.symbol.var = x.symbol.var) (hop : y.symbol.operation ∈ operation) :
    ∃ z ∈ rest, ⟨x, z, false⟩ ∈ findOtherTraces operation x rest seen ∧ z.threadId = y.threadId ∧
      m z.position ≤ m y.position := by
  induction rest generalizing seen with
  | nil => simp at hy
  | cons z rest ih =>
    obtain ⟨hz, hrest⟩ := List.pairwise_cons.1 hinc
    rw [findOtherTraces]
    rcases List.mem_cons.1 hy with rfl | hy
    · exact ⟨y, List.mem_cons_self, by rw [if_pos ⟨hs, hvar, hop⟩]; exact List.mem_cons_self, rfl, le_refl _⟩
    · by_cases ht : z.threadId = y.threadId
      · by_cases hc : z.threadId ∉ seen ∧ z.symbol.var = x.symbol.var ∧ z.symbol.operation ∈ operation
        · exact ⟨z, List.mem_cons_self, by rw [if_pos hc]; exact List.mem_cons_self, ht, (hz y hy).le⟩
        · obtain ⟨z', hz', hmem, hrest'⟩ := ih hrest hy hs
          exact ⟨z', List.mem_cons_of_mem _ hz', by rw [if_neg hc]; exact hmem, hrest'⟩
      · split_ifs
        · have hs' : y.threadId ∉ z.threadId :: seen := by simp [hs, Ne.symm ht]
          obtain ⟨z', hz', hmem, hrest'⟩ := ih hrest hy hs'
          exact ⟨z', List.mem_cons_of_mem _ hz', List.mem_cons_of_mem _ hmem, hrest'⟩
        · obtain ⟨z', hz', hmem, hrest'⟩ := ih hrest hy hs
          exact ⟨z', List.mem_cons_of_mem _ hz', hmem, hrest'⟩

/-- two accesses to a variable, at least one of them a write -/
def Accesses (l l' : TraceLocation) : Prop :=
  l.symbol.var = l'.symbol.var ∧
    ((l.symbol.operation = .write ∧ (l'.symbol.operation = .read ∨ l'.symbol.operation = .write)) ∨
      (l.symbol.operation = .read ∧ l'.symbol.operation = .write))

theorem accesses_iff {l l' : TraceLocation} : Accesses l l' ↔
    l'.symbol.var = l.symbol.var ∧ l'.symbol.operation ∈ conflictingOperations l.symbol.operation := by
  unfold Accesses
  rw [eq_comm]
  apply and_congr_right
  intro _
  cases l.symbol.operation <;> simp [conflictingOperations]

theorem mem_orderFrom {order : List TraceLocation} {ca : ConstraintAtom} (h : ca ∈ orderFrom order)
    (hinc : Increasing (fun l : TraceLocation => m l.position) order) :
    ca.before ∈ order ∧ ca.after ∈ order ∧ m ca.before.position < m ca.after.position ∧
      Accesses ca.before ca.after := by
  induction order with
  | nil => simp [orderFrom] at h
  | cons x rest ih =>
    obtain ⟨hx, hrest⟩ := List.pairwise_cons.1 hinc
    rcases List.mem_append.1 h with h | h
    · obtain ⟨hb, ha, hacc⟩ := mem_findOtherTraces h
      rw [hb]
      exact ⟨List.mem_cons_self, List.mem_cons_of_mem _ ha, hx _ ha, accesses_iff.2 hacc⟩
    · obtain ⟨hb, ha, hlt⟩ := ih h hrest
      exact ⟨List.mem_cons_of_mem _ hb, List.mem_cons_of_mem _ ha, hlt⟩

/-- `get_int` reads the value of the location -/
def IsRead (m : Assignment) (l : TraceLocation) : Prop := (getInt (m l.position)).isSome = true

theorem mem_order {l : TraceLocation} : l ∈ order w m ↔ l ∈ splitTrace w ∧ IsRead m l := by
  simp [order, IsRead]

theorem order_increasing (h : KeepsThreadOrder w m) :
    Increasing (fun l : TraceLocation => m l.position) (order w m) :=
  orderBy_increasing (h.separates.pairwise_ne.filter _)

theorem mem_gather {operations : List OpClass} {var : ℕ} {l : TraceLocation} (h : l ∈ gather threads w operations var) :
    l ∈ splitTrace w := by
  obtain ⟨t, -, ht⟩ := List.mem_flatMap.1 (List.mem_filter.1 h).1
  exact (mem_threadedTrace.1 ht).1

theorem mem_findOrder2 {one two : List TraceLocation} {ca : ConstraintAtom} (h : ca ∈ findOrder2 m one two)
    (hm : KeepsThreadOrder w m) (h1 : ∀ l ∈ one, l ∈ splitTrace w) (h2 : ∀ l ∈ two, l ∈ splitTrace w) :
    ca.before ∈ splitTrace w ∧ ca.after ∈ splitTrace w ∧ m ca.before.position < m ca.after.position := by
  obtain ⟨it, hit, h⟩ := List.mem_flatMap.1 h
  obtain ⟨it2, hit2, h⟩ := List.mem_filterMap.1 h
  split_ifs at h with ht hlt
  · rw [← Option.some.inj h]
    exact ⟨h1 it hit, h2 it2 hit2, hlt⟩
  · have hne : m it2.position ≠ m it.position := by
      intro heq
      exact ht (by rw [hm.injective _ (h2 it2 hit2) _ (h1 it hit) heq])
    rw [← Option.some.inj h]
    exact ⟨h2 it2 hit2, h1 it hit, lt_of_le_of_ne (not_lt.1 hlt) hne⟩

/-- each constraint is about two locations of the trace and holds in the ordering -/
theorem mem_findOrder {ca : ConstraintAtom} (hm : KeepsThreadOrder w m)
    (h : ca ∈ findOrder ids threads w m waitNotify) :
    ca.before ∈ splitTrace w ∧ ca.after ∈ splitTrace w ∧ m ca.before.position < m ca.after.position := by
  rcases List.mem_append.1 h with h | h
  · obtain ⟨hb, ha, hlt, -⟩ := mem_orderFrom h (order_increasing hm)
    exact ⟨(mem_order.1 hb).1, (mem_order.1 ha).1, hlt⟩
  · split_ifs at h
    · obtain ⟨i, -, h⟩ := List.mem_flatMap.1 h
      rcases List.mem_append.1 h with h | h
      · rcases List.mem_append.1 h with h | h
        · exact mem_findOrder2 h hm (fun _ => mem_gather) (fun _ => mem_gather)
        · exact mem_findOrder2 h hm (fun _ => mem_gather) (fun _ => mem_gather)
      · exact mem_findOrder2 h hm (fun _ => mem_gather) (fun _ => mem_gather)
    · simp at h

/-! ## Conflicting accesses -/

/-- two accesses to a variable by different threads, at least one of them a write -/
def Conflicting (l l' : TraceLocation) : Prop := Accesses l l' ∧ l.threadId ≠ l'.threadId

theorem Conflicting.symm {l l' : TraceLocation} (h : Conflicting l l') : Conflicting l' l := by
  obtain ⟨⟨hv, ho⟩, ht⟩ := h
  refine ⟨⟨hv.symm, ?_⟩, ht.symm⟩
  rcases ho with ⟨h1, h2 | h2⟩ | ⟨h1, h2⟩
  · exact Or.inr ⟨h2, h1⟩
  · exact Or.inl ⟨h2, Or.inr h1⟩
  · exact Or.inl ⟨h2, Or.inl h1⟩

theorem exists_orderFrom {order : List TraceLocation} (hinc : Increasing (fun l : TraceLocation => m l.position) order)
    {x y : TraceLocation} (hx : x ∈ order) (hy : y ∈ order) (hlt : m x.position < m y.position) (hc : Conflicting x y) :
    ∃ z ∈ order, ⟨x, z, false⟩ ∈ orderFrom order ∧ z.threadId = y.threadId ∧ m z.position ≤ m y.position := by
  induction order with
  | nil => simp at hx
  | cons x' rest ih =>
    obtain ⟨hx', hrest⟩ := List.pairwise_cons.1 hinc
    rcases List.mem_cons.1 hx with rfl | hx1
    · have hy' : y ∈ rest := by
        rcases List.mem_cons.1 hy with rfl | hy
        · exact absurd hlt (lt_irrefl _)
        · exact hy
      obtain ⟨hvar, hop⟩ := accesses_iff.1 hc.1
      obtain ⟨z, hz, hmem, ht, hle⟩ := exists_findOtherTraces hrest hy' List.not_mem_nil hvar hop
      exact ⟨z, List.mem_cons_of_mem _ hz, List.mem_append_left _ hmem, ht, hle⟩
    · have hy' : y ∈ rest := by
        rcases List.mem_cons.1 hy with rfl | hy
        · exact absurd (hlt.trans (hx' _ hx1)) (lt_irrefl _)
        · exact hy
      obtain ⟨z, hz, hmem, ht, hle⟩ := ih hrest hx1 hy'
      exact ⟨z, List.mem_cons_of_mem _ hz, List.mem_append_right _ hmem, ht, hle⟩

/-- **The class determines the order of conflicting accesses** that are read. -/
theorem findOrder_lt (hm : KeepsThreadOrder w m) (hp : KeepsThreadOrder w p)
    (h : makeConj (findOrder ids threads w m waitNotify) p = true) {x y : TraceLocation} (hx : x ∈ splitTrace w)
    (hy : y ∈ splitTrace w) (hxr : IsRead m x) (hyr : IsRead m y) (hc : Conflicting x y)
    (hlt : m x.position < m y.position) : p x.position < p y.position := by
  obtain ⟨z, hz, hmem, ht, hle⟩ :=
    exists_orderFrom (order_increasing hm) (mem_order.2 ⟨hx, hxr⟩) (mem_order.2 ⟨hy, hyr⟩) hlt hc
  have hxz : p x.position < p z.position := makeConj_iff.1 h _ (List.mem_append_left _ hmem)
  -- `z` is `y` or an earlier location of its thread
  have hz' := (mem_order.1 hz).1
  rcases Nat.lt_trichotomy z.position y.position with hlt' | heq | hgt
  · exact hxz.trans (hp.order z hz' y hy ht hlt')
  · rwa [heq] at hxz
  · exact absurd (hm.order y hy z hz' ht.symm hgt) (not_lt_of_ge hle)

/-- two orderings that order conflicting accesses in the same way -/
def SameOrder (w : List Symbol) (m p : Assignment) : Prop :=
  ∀ x ∈ splitTrace w, ∀ y ∈ splitTrace w, Conflicting x y → (m x.position < m y.position ↔ p x.position < p y.position)

theorem SameOrder.symm (h : SameOrder w m p) : SameOrder w p m := fun x hx y hy hc => (h x hx y hy hc).symm

/-! ## What is read -/

/-- the order that a class fixes: that of each thread, and that of conflicting accesses that are both read -/
def Fixes (w : List Symbol) (m : Assignment) (x y : TraceLocation) : Prop :=
  x ∈ splitTrace w ∧ y ∈ splitTrace w ∧ ((x.threadId = y.threadId ∧ x.position < y.position) ∨
    (IsRead m x ∧ IsRead m y ∧ Conflicting x y ∧ m x.position < m y.position))

/-- **captured**: all conflicting accesses are in the order that this leads to -/
def Captured (w : List Symbol) (m : Assignment) : Prop :=
  ∀ x ∈ splitTrace w, ∀ y ∈ splitTrace w, Conflicting x y → m x.position < m y.position →
    Relation.ReflTransGen (Fixes w m) x y

/-- which holds where every value fits an `int` -/
theorem captured_of_read (h : ∀ l ∈ splitTrace w, IsRead m l) : Captured w m := fun x hx y hy hc hlt =>
  .single ⟨hx, hy, Or.inr ⟨h x hx, h y hy, hc, hlt⟩⟩

/-- the order of two locations of a thread is that of their positions -/
theorem KeepsThreadOrder.position_lt (hm : KeepsThreadOrder w m) {x y : TraceLocation} (hx : x ∈ splitTrace w)
    (hy : y ∈ splitTrace w) (ht : x.threadId = y.threadId) (hlt : m x.position < m y.position) :
    x.position < y.position := by
  rcases Nat.lt_trichotomy x.position y.position with hpos | heq | hgt
  · exact hpos
  · rw [heq] at hlt
    exact absurd hlt (lt_irrefl _)
  · exact absurd (hm.order _ hy _ hx ht.symm hgt) (not_lt_of_gt hlt)

/-- without waits and notifies the constraints are of this order -/
theorem fixes_of_mem (hm : KeepsThreadOrder w m) {ca : ConstraintAtom} (h : ca ∈ findOrder ids threads w m false) :
    Fixes w m ca.before ca.after := by
  rw [findOrder, if_neg Bool.false_ne_true, List.append_nil] at h
  obtain ⟨hb, ha, hlt, hacc⟩ := mem_orderFrom h (order_increasing hm)
  obtain ⟨hb, hbr⟩ := mem_order.1 hb
  obtain ⟨ha, har⟩ := mem_order.1 ha
  refine ⟨hb, ha, ?_⟩
  by_cases ht : ca.before.threadId = ca.after.threadId
  · exact Or.inl ⟨ht, hm.position_lt hb ha ht hlt⟩
  · exact Or.inr ⟨hbr, har, ⟨hacc, ht⟩, hlt⟩

/-- an ordering that keeps what the class of another one fixes -/
def KeepsFixed (w : List Symbol) (m p : Assignment) : Prop :=
  ∀ x y, Fixes w m x y → p x.position < p y.position

theorem keepsFixed_of_class (hm : KeepsThreadOrder w m) (hp : KeepsThreadOrder w p)
    (h : makeConj (findOrder ids threads w m waitNotify) p = true) : KeepsFixed w m p := by
  intro x y ⟨hx, hy, hxy⟩
  rcases hxy with ⟨ht, hpos⟩ | ⟨hxr, hyr, hc, hlt⟩
  · exact hp.order x hx y hy ht hpos
  · exact findOrder_lt hm hp h hx hy hxr hyr hc hlt

/-- **The orderings of a class**, without the order of waits and notifies. -/
theorem class_iff (hm : KeepsThreadOrder w m) (hp : KeepsThreadOrder w p) :
    makeConj (findOrder ids threads w m false) p = true ↔ KeepsFixed w m p :=
  ⟨keepsFixed_of_class hm hp, fun h => makeConj_iff.2 fun _ hca => h _ _ (fixes_of_mem hm hca)⟩

/-- an ordering with the same order of conflicting accesses keeps what is fixed, whatever has been read -/
theorem keepsFixed_of_sameOrder (hp : KeepsThreadOrder w p) (h : SameOrder w m p) : KeepsFixed w m p := by
  intro x y ⟨hx, hy, hxy⟩
  rcases hxy with ⟨ht, hpos⟩ | ⟨-, -, hc, hlt⟩
  · exact hp.order x hx y hy ht hpos
  · exact (h x hx y hy hc).1 hlt

/-- so a class does not separate orderings that have the same order of conflicting accesses -/
theorem KeepsFixed.congr {q : Assignment} (h : KeepsFixed w m p) (hq : KeepsThreadOrder w q) (hpq : SameOrder w p q) :
    KeepsFixed w m q := by
  intro x y hxy
  obtain ⟨hx, hy, ⟨ht, hpos⟩ | ⟨-, -, hc, -⟩⟩ := id hxy
  · exact hq.order x hx y hy ht hpos
  · exact (hpq x hx y hy hc).1 (h x y hxy)

theorem KeepsFixed.le (h : KeepsFixed w m p) {x y : TraceLocation} (hxy : Relation.ReflTransGen (Fixes w m) x y) :
    p x.position ≤ p y.position := by
  induction hxy with
  | refl => exact le_refl _
  | tail _ hstep ih => exact ih.trans (h _ _ hstep).le

/-- **What a captured ordering fixes** determines the order of all conflicting accesses. -/
theorem KeepsFixed.sameOrder (h : KeepsFixed w m p) (hm : KeepsThreadOrder w m) (hp : KeepsThreadOrder w p)
    (hcap : Captured w m) : SameOrder w m p := by
  have hlt : ∀ x ∈ splitTrace w, ∀ y ∈ splitTrace w, Conflicting x y → m x.position < m y.position →
      p x.position < p y.position := by
    intro x hx y hy hc hxy
    apply lt_of_le_of_ne (h.le (hcap x hx y hy hc hxy))
    exact fun heq => hc.2 (by rw [hp.injective x hx y hy heq])
  intro x hx y hy hc
  refine ⟨hlt x hx y hy hc, fun hpxy => ?_⟩
  rcases lt_trichotomy (m x.position) (m y.position) with hmxy | heq | hgt
  · exact hmxy
  · exact absurd (hm.injective x hx y hy heq) (fun he => hc.2 (by rw [he]))
  · exact absurd (hpxy.trans (hlt y hy x hx hc.symm hgt)) (lt_irrefl _)

/-- what an ordering that is not captured fixes is kept by one of another order: what is fixed to come after an access can
be put behind all the rest -/
theorem exists_other (hm : KeepsThreadOrder w m) (hcap : ¬Captured w m) :
    ∃ p, KeepsThreadOrder w p ∧ KeepsFixed w m p ∧ ¬SameOrder w m p := by
  simp only [Captured, not_forall] at hcap
  obtain ⟨x, hx, y, hy, hc, hxy, hnot⟩ := hcap
  have hvalue : ∀ a b, Fixes w m a b → a ∈ splitTrace w ∧ b ∈ splitTrace w ∧ m a.position < m b.position := by
    intro a b ⟨ha, hb, hab⟩
    refine ⟨ha, hb, ?_⟩
    rcases hab with ⟨ht, hpos⟩ | ⟨-, -, -, hlt⟩
    · exact hm.order a ha b hb ht hpos
    · exact hlt
  obtain ⟨g, hg, hinj, hyx⟩ := exists_postponed hvalue hx hy hnot
  -- the value of a position is that of the location there
  let p : Assignment := fun n => (w[n]?.map fun s => g ⟨s, n⟩).getD 0
  have hp : ∀ l ∈ splitTrace w, p l.position = g l := by
    intro l hl
    show (w[l.position]?.map fun s => g ⟨s, l.position⟩).getD 0 = g l
    rw [mem_splitTrace.1 hl]
    rfl
  have hkeep : KeepsThreadOrder w p := by
    refine ⟨fun l hl l' hl' heq => ?_, fun l hl l' hl' ht hpos => ?_⟩
    · rw [hp l hl, hp l' hl'] at heq
      exact hm.injective l hl l' hl' (hinj l hl l' hl' heq)
    · rw [hp l hl, hp l' hl']
      exact hg l l' ⟨hl, hl', Or.inl ⟨ht, hpos⟩⟩
  refine ⟨p, hkeep, fun a b hab => ?_, fun hsame => ?_⟩
  · rw [hp a hab.1, hp b hab.2.1]
    exact hg a b hab
  · have hlt := (hsame x hx y hy hc).1 hxy
    rw [hp x hx, hp y hy] at hlt
    exact absurd (hlt.trans hyx) (lt_irrefl _)

/-! ## Waits, notifies and resets -/

/-- two orderings that compare two locations in the same way -/
def Agree2 (m p : Assignment) (x y : TraceLocation) : Prop :=
  (m x.position < m y.position ↔ p x.position < p y.position) ∧
    (m y.position < m x.position ↔ p y.position < p x.position)

theorem Agree2.symm {x y : TraceLocation} (h : Agree2 m p x y) : Agree2 m p y x := ⟨h.2, h.1⟩

theorem agree_of_lt (hm : KeepsThreadOrder w m) {x y : TraceLocation}
    (hx : x ∈ splitTrace w) (hy : y ∈ splitTrace w) (h1 : m x.position < m y.position → p x.position < p y.position)
    (h2 : m y.position < m x.position → p y.position < p x.position) : Agree2 m p x y := by
  rcases lt_trichotomy (m x.position) (m y.position) with hlt | heq | hgt
  · have hlt' := h1 hlt
    exact ⟨by simp [hlt, hlt'], by simp [not_lt_of_gt hlt, not_lt_of_gt hlt']⟩
  · obtain rfl := hm.injective x hx y hy heq
    exact ⟨by simp, by simp⟩
  · have hgt' := h2 hgt
    exact ⟨by simp [not_lt_of_gt hgt, not_lt_of_gt hgt'], by simp [hgt, hgt']⟩

/-- locations of one thread are compared by their positions -/
theorem agree_of_thread (hm : KeepsThreadOrder w m) (hp : KeepsThreadOrder w p) {x y : TraceLocation}
    (hx : x ∈ splitTrace w) (hy : y ∈ splitTrace w) (ht : x.threadId = y.threadId) : Agree2 m p x y :=
  agree_of_lt hm hx hy (fun hlt => hp.order x hx y hy ht (hm.position_lt hx hy ht hlt))
    fun hlt => hp.order y hy x hx ht.symm (hm.position_lt hy hx ht.symm hlt)

/-- `find_order2` fixes how each element of the one list compares with each of the other -/
theorem agree_of_findOrder2 (hm : KeepsThreadOrder w m) (hp : KeepsThreadOrder w p) {one two : List TraceLocation}
    (h : makeConj (findOrder2 m one two) p = true) (h1 : ∀ l ∈ one, l ∈ splitTrace w)
    (h2 : ∀ l ∈ two, l ∈ splitTrace w) {x y : TraceLocation} (hx : x ∈ one) (hy : y ∈ two) : Agree2 m p x y := by
  by_cases ht : x.threadId = y.threadId
  · exact agree_of_thread hm hp (h1 x hx) (h2 y hy) ht
  · have hatom : p (if m x.position < m y.position then x else y).position <
        p (if m x.position < m y.position then y else x).position := by
      have hmem : (if m x.position < m y.position then (⟨x, y, false⟩ : ConstraintAtom) else ⟨y, x, false⟩) ∈
          findOrder2 m one two :=
        List.mem_flatMap.2 ⟨x, hx, List.mem_filterMap.2 ⟨y, hy, if_pos ht⟩⟩
      have hlt := makeConj_iff.1 h _ hmem
      split_ifs at hlt ⊢ <;> exact hlt
    refine agree_of_lt hm (h1 x hx) (h2 y hy) (fun hlt => ?_) (fun hlt => ?_)
    · simpa only [if_pos hlt] using hatom
    · simpa only [if_neg (not_lt_of_gt hlt)] using hatom

/-- the orderings compare the waits, resets and notifies of a conditional in the same way -/
structure AgreeOn (threads : ℕ) (w : List Symbol) (m p : Assignment) (i : ℕ) : Prop where
  waitReset : ∀ x ∈ waits threads w i, ∀ y ∈ resets threads w i, Agree2 m p x y
  waitNotify : ∀ x ∈ waits threads w i, ∀ y ∈ notifies threads w i, Agree2 m p x y
  resetNotify : ∀ x ∈ resets threads w i, ∀ y ∈ notifies threads w i, Agree2 m p x y

theorem agreeOn_of_findOrder (hm : KeepsThreadOrder w m) (hp : KeepsThreadOrder w p)
    (h : makeConj (findOrder ids threads w m true) p = true) {i : ℕ} (hi : i < ids.noConditionals) :
    AgreeOn threads w m p i := by
  have hall : makeConj (findOrder2 m (waits threads w i) (resets threads w i) ++
      findOrder2 m (waits threads w i) (notifies threads w i) ++
        findOrder2 m (resets threads w i) (notifies threads w i)) p = true := by
    refine makeConj_iff.2 fun ca hca => makeConj_iff.1 h ca (List.mem_append_right _ ?_)
    rw [if_pos rfl]
    exact List.mem_flatMap.2 ⟨i, List.mem_range.2 hi, hca⟩
  simp only [makeConj_append, Bool.and_eq_true] at hall
  obtain ⟨⟨hwr, hwn⟩, hrn⟩ := hall
  exact ⟨fun x hx y hy => agree_of_findOrder2 hm hp hwr (fun _ => mem_gather) (fun _ => mem_gather) hx hy,
    fun x hx y hy => agree_of_findOrder2 hm hp hwn (fun _ => mem_gather) (fun _ => mem_gather) hx hy,
    fun x hx y hy => agree_of_findOrder2 hm hp hrn (fun _ => mem_gather) (fun _ => mem_gather) hx hy⟩

theorem makeConj_findOrder2 {one two : List TraceLocation}
    (h : ∀ x ∈ one, ∀ y ∈ two, Agree2 m p x y) (hm : KeepsThreadOrder w m) (h1 : ∀ l ∈ one, l ∈ splitTrace w)
    (h2 : ∀ l ∈ two, l ∈ splitTrace w) : makeConj (findOrder2 m one two) p = true := by
  refine makeConj_iff.2 fun ca hca => ?_
  obtain ⟨-, -, hlt⟩ := mem_findOrder2 hca hm h1 h2
  obtain ⟨x, hx, hca⟩ := List.mem_flatMap.1 hca
  obtain ⟨y, hy, hca⟩ := List.mem_filterMap.1 hca
  split_ifs at hca
  · rw [← Option.some.inj hca] at hlt ⊢
    exact (h x hx y hy).1.1 hlt
  · rw [← Option.some.inj hca] at hlt ⊢
    exact (h x hx y hy).2.1 hlt

/-- **The orderings of a class**, with the order of waits and notifies. -/
theorem class_iff_agreeOn (hm : KeepsThreadOrder w m) (hp : KeepsThreadOrder w p) :
    makeConj (findOrder ids threads w m true) p = true ↔
      KeepsFixed w m p ∧ ∀ i < ids.noConditionals, AgreeOn threads w m p i := by
  refine ⟨fun h => ⟨keepsFixed_of_class hm hp h, fun i hi => agreeOn_of_findOrder hm hp h hi⟩, fun ⟨hfix, hon⟩ => ?_⟩
  have hacc : makeConj (findOrder ids threads w m false) p = true := (class_iff hm hp).2 hfix
  rw [findOrder, if_neg Bool.false_ne_true, List.append_nil] at hacc
  rw [findOrder, if_pos rfl, makeConj_append, hacc, Bool.true_and, waitNotifyOrder, makeConj_iff]
  intro ca hca
  obtain ⟨i, hi, hca⟩ := List.mem_flatMap.1 hca
  have hon := hon i (List.mem_range.1 hi)
  rcases List.mem_append.1 hca with hca | hca
  · rcases List.mem_append.1 hca with hca | hca
    · exact makeConj_iff.1 (makeConj_findOrder2 hon.waitReset hm (fun _ => mem_gather) fun _ => mem_gather) ca hca
    · exact makeConj_iff.1 (makeConj_findOrder2 hon.waitNotify hm (fun _ => mem_gather) fun _ => mem_gather) ca hca
  · exact makeConj_iff.1 (makeConj_findOrder2 hon.resetNotify hm (fun _ => mem_gather) fun _ => mem_gather) ca hca

theorem waitCondition_congr {i : ℕ} (h : AgreeOn threads w m p i) {it : TraceLocation} (hit : it ∈ waits threads w i) :
    waitCondition threads w i it m = waitCondition threads w i it p := by
  rw [Bool.eq_iff_iff]
  simp only [waitCondition, List.any_eq_true, Bool.and_eq_true, List.all_eq_true, Bool.or_eq_true, decide_eq_true_eq,
    gt_iff_lt]
  refine exists_congr fun itn => and_congr_right fun hitn => and_congr (h.waitNotify it hit itn hitn).2 ?_
  refine forall_congr' fun itr => imp_congr_right fun hitr => ?_
  exact or_congr (or_congr Iff.rfl (h.resetNotify itr hitr itn hitn).1) (h.waitReset it hit itr hitr).1

theorem waitNotCondition_congr {i : ℕ} (h : AgreeOn threads w m p i) {it : TraceLocation}
    (hit : it ∈ waits threads w i) : waitNotCondition threads w i it m = waitNotCondition threads w i it p := by
  rw [Bool.eq_iff_iff]
  simp only [waitNotCondition, List.any_eq_true, Bool.and_eq_true, List.all_eq_true, Bool.or_eq_true,
    decide_eq_true_eq, gt_iff_lt]
  refine or_congr ?_ ?_
  · exact forall_congr' fun itn => imp_congr_right fun hitn => (h.waitNotify it hit itn hitn).1
  · refine exists_congr fun itr => and_congr_right fun hitr => and_congr (h.waitReset it hit itr hitr).2 ?_
    refine forall_congr' fun itn => imp_congr_right fun hitn => ?_
    exact or_congr (h.resetNotify itr hitr itn hitn).2 (h.waitNotify it hit itn hitn).1

/-- **With the order of waits and notifies the class determines `conditionals`.** -/
theorem conditionals_of_findOrder (hm : KeepsThreadOrder w m) (hp : KeepsThreadOrder w p)
    (h : makeConj (findOrder ids threads w m true) p = true) :
    conditionals ids threads w m = conditionals ids threads w p := by
  rw [Bool.eq_iff_iff]
  simp only [conditionals, List.all_eq_true, List.mem_range]
  refine forall_congr' fun i => imp_congr_right fun hi => forall_congr' fun it => imp_congr_right fun hit => ?_
  have hon := agreeOn_of_findOrder hm hp h hi
  rw [waitCondition_congr hon hit, waitNotCondition_congr hon hit]

/-- **The class of an ordering, with and without the order of waits and notifies.** It is the class of the orderings with
the same order of conflicting accesses iff the ordering is captured. -/
theorem findOrder_class (ids : Identifiers) (threads : ℕ) (hm : KeepsThreadOrder w m) :
    (∀ p, KeepsThreadOrder w p →
      (makeConj (findOrder ids threads w m false) p = true ↔ SameOrder w m p) ∧
        (makeConj (findOrder ids threads w m true) p = true →
          SameOrder w m p ∧ conditionals ids threads w p = conditionals ids threads w m)) ↔ Captured w m := by
  constructor
  · intro h
    by_contra hcap
    obtain ⟨p, hp, hfixed, hnot⟩ := exists_other hm hcap
    exact hnot ((h p hp).1.1 ((class_iff hm hp).2 hfixed))
  · intro hcap p hp
    rw [class_iff hm hp]
    refine ⟨⟨fun h => h.sameOrder hm hp hcap, keepsFixed_of_sameOrder hp⟩, fun h => ⟨?_, ?_⟩⟩
    · exact (keepsFixed_of_class hm hp h).sameOrder hm hp hcap
    · exact (conditionals_of_findOrder hm hp h).symm

/-! ### A value that does not fit -/

/-- `x=1;` in two threads -/
def writePair : List Symbol :=
  [{ operation := .write, var := 0, loc := ⟨0, 1⟩ }, { operation := .write, var := 0, loc := ⟨1, 1⟩ }]

/-- the first write comes first, and the second one far behind it -/
def farBehind : Assignment := fun i => 2 ^ 31 * i

theorem keepsThreadOrder_farBehind (w : List Symbol) : KeepsThreadOrder w farBehind where
  injective := by
    intro l hl l' hl' h
    apply eq_of_position hl hl'
    unfold farBehind at h
    omega
  order := by
    intro l _ l' _ _ h
    unfold farBehind
    omega

theorem findOrder_class_writePair : Captured writePair (fun i => (i : ℤ)) ∧ ∀ p, KeepsThreadOrder writePair p →
    (makeConj (findOrder ⟨1, 0, 0⟩ 2 writePair (fun i => (i : ℤ)) false) p = true ↔
        SameOrder writePair (fun i => (i : ℤ)) p) ∧
      (makeConj (findOrder ⟨1, 0, 0⟩ 2 writePair (fun i => (i : ℤ)) true) p = true →
        SameOrder writePair (fun i => (i : ℤ)) p ∧
          conditionals ⟨1, 0, 0⟩ 2 writePair p = conditionals ⟨1, 0, 0⟩ 2 writePair fun i => (i : ℤ)) := by
  have hcap : Captured writePair (fun i => (i : ℤ)) := by
    refine captured_of_read ?_
    unfold IsRead
    decide
  exact ⟨hcap, (findOrder_class _ _ (word_position writePair).2).2 hcap⟩

/-- **The class of `farBehind` is empty of constraints**, so that the other order is in it. -/
theorem findOrder_farBehind :
    ¬∀ (ids : Identifiers) (threads : ℕ) (w : List Symbol) (m p : Assignment), KeepsThreadOrder w m →
      KeepsThreadOrder w p → (makeConj (findOrder ids threads w m false) p = true ↔ SameOrder w m p) ∧
        (makeConj (findOrder ids threads w m true) p = true →
          SameOrder w m p ∧ conditionals ids threads w p = conditionals ids threads w m) := by
  intro hall
  have hback : KeepsThreadOrder writePair fun i => -(i : ℤ) := by
    refine ⟨fun l hl l' hl' heq => eq_of_position hl hl' (by omega), fun l hl l' hl' ht hpos => ?_⟩
    have hsplit : splitTrace writePair = [⟨writePair[0], 0⟩, ⟨writePair[1], 1⟩] := rfl
    simp only [hsplit, List.mem_cons, List.not_mem_nil, or_false] at hl hl'
    rcases hl with rfl | rfl <;> rcases hl' with rfl | rfl <;> simp [writePair, TraceLocation.threadId,
      Symbol.threadId] at ht hpos
  have hclass : makeConj (findOrder ⟨1, 0, 0⟩ 2 writePair farBehind false) (fun i => -(i : ℤ)) = true := by decide
  have hsame := ((hall ⟨1, 0, 0⟩ 2 writePair farBehind _ (keepsThreadOrder_farBehind _) hback).1).1 hclass
  have hlt := (hsame ⟨writePair[0], 0⟩ (by decide) ⟨writePair[1], 1⟩ (by decide)
    ⟨⟨rfl, Or.inl ⟨rfl, Or.inr rfl⟩⟩, by decide⟩).1 (by decide)
  exact absurd hlt (by decide)

/-! ## The class depends only on the order -/

theorem lt_iff_of_reordered (hm : KeepsThreadOrder w m) (hp : KeepsThreadOrder w p) (h : reordered w m = reordered w p)
    {x y : TraceLocation} (hx : x ∈ splitTrace w) (hy : y ∈ splitTrace w) :
    m x.position < m y.position ↔ p x.position < p y.position := by
  have hinc := hm.increasing
  rw [h] at hinc
  exact lt_iff_of_increasing hinc hp.increasing (mem_reordered.2 hx) (mem_reordered.2 hy)

/-- **An ordering is in the class of every one that sorts the locations in the same way.** -/
theorem makeConj_findOrder_congr (hm : KeepsThreadOrder w m) (hp : KeepsThreadOrder w p)
    (h : reordered w m = reordered w p) : makeConj (findOrder ids threads w m waitNotify) p = true := by
  refine makeConj_iff.2 fun ca hca => ?_
  obtain ⟨hb, ha, hlt⟩ := mem_findOrder hm hca
  exact (lt_iff_of_reordered hm hp h hb ha).1 hlt

end Liss.Synthesis
