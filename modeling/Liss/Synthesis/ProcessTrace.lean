/-
`process_trace` of `synthesis/reorderings.cpp`: the enumeration of the sequential and of the bad classes of a trace.

Both loops block the class of each model they find. The solvers are pushed and popped around them, so they are values
here; sanity checks and debug output are left out. A loop that runs out of fuel gives `none`, as does a trace for which
`prepare_trace` reads an empty list.

- `processTrace_isSome`: both loops end, after at most as many rounds as there are permutations of the locations;
- `goodLoop_spec`, `badLoop_spec`: what they find;
- `processTrace_spec`: the bad classes cover the orderings in which no sequential one has the same order of accesses,
  but for those that the class of a sequential one of another order takes with it.
-/
import Mathlib.Data.List.Permutation
import Liss.Synthesis.FindOrder
import Liss.Synthesis.Z3Helpers

namespace Liss.Synthesis

variable (z3 : Oracle Assignment) (ids : Identifiers) (threads : ℕ) (trace : List Symbol)

/-- the loop that accumulates the sequential traces -/
def goodLoop : ℕ → Solver Assignment → Dnf ConstraintAtom → Option (Dnf ConstraintAtom)
  | 0, _, _ => none
  | fuel + 1, slvGood, seqTraces =>
    match z3.check slvGood [] with
    | none => some seqTraces
    | some model =>
      let constraint := findOrder ids threads trace model false
      goodLoop fuel (slvGood.add fun a => !makeConj constraint a) (seqTraces ++ [constraint])

/-- the models that this loop is given, one in each round -/
def goodModels : ℕ → Solver Assignment → List Assignment
  | 0, _ => []
  | fuel + 1, slvGood =>
    match z3.check slvGood [] with
    | none => []
    | some model =>
      model :: goodModels fuel (slvGood.add fun a => !makeConj (findOrder ids threads trace model false) a)

/-- the loop that gathers the concurrent traces that are not sequential -/
def badLoop : ℕ → Solver Assignment → Solver Assignment → Dnf ConstraintAtom → Option (Dnf ConstraintAtom)
  | 0, _, _, _ => none
  | fuel + 1, slvBad, slvGoodWeak, badTracesInt =>
    match z3.check slvBad [] with
    | none => some badTracesInt
    | some model =>
      let r := minUnsat z3 slvGoodWeak (findOrder ids threads trace model true) ConstraintAtom.expr
      let constraint := r.2.1
      badLoop fuel (slvBad.add fun a => !makeConj constraint a) r.2.2 (badTracesInt ++ [constraint])

/-- the rounds of this loop: the model that is found and the answer of `min_unsat` -/
def badRounds : ℕ → Solver Assignment → Solver Assignment → List (Assignment × Bool)
  | 0, _, _ => []
  | fuel + 1, slvBad, slvGoodWeak =>
    match z3.check slvBad [] with
    | none => []
    | some model =>
      let r := minUnsat z3 slvGoodWeak (findOrder ids threads trace model true) ConstraintAtom.expr
      (model, r.1) :: badRounds fuel (slvBad.add fun a => !makeConj r.2.1 a) r.2.2

/-- `slv_good`, for the constraint `locks` -/
def slvGood (locks : Expr) (synthesisedLocks : LockSymbols) : Solver Assignment where
  asserted := [threadOrder threads trace, distinct trace, locks, conditionals ids threads trace,
    sequential threads trace, synthLocks trace synthesisedLocks]

/-- `slv_good_weak`, which has no conditionals -/
def slvGoodWeak (locks : Expr) (synthesisedLocks : LockSymbols) : Solver Assignment where
  asserted := [threadOrder threads trace, distinct trace, locks, sequential threads trace,
    synthLocks trace synthesisedLocks]

/-- `slv_bad` -/
def slvBad (locks : Expr) (synthesisedLocks : LockSymbols) : Solver Assignment where
  asserted := [threadOrder threads trace, distinct trace, locks, conditionals ids threads trace,
    synthLocks trace synthesisedLocks]

/-- `process_trace` -/
def processTrace (fuel : ℕ) (synthesisedLocks : LockSymbols) : Option (Dnf ConstraintAtom) := do
  let locks ← locks ids threads trace
  let seqTraces ← goodLoop z3 ids threads trace fuel (slvGood ids threads trace locks synthesisedLocks) []
  let slvBad := (slvBad ids threads trace locks synthesisedLocks).add fun a => !makeDnf seqTraces a
  let badTracesInt ← badLoop z3 ids threads trace fuel slvBad (slvGoodWeak threads trace locks synthesisedLocks) []
  -- filter out duplicates
  some (minUnsat z3 slvBad badTracesInt fun c a => !makeConj c a).2.1

variable {z3 ids threads trace} {fuel : ℕ} {s weak : Solver Assignment} {acc D : Dnf ConstraintAtom}

/-! ## The loops end -/

theorem length_le_factorial {visited : List (List TraceLocation)} (hnodup : visited.Nodup)
    (hperm : ∀ v ∈ visited, v.Perm (splitTrace trace)) : visited.length ≤ trace.length.factorial := by
  have hsub : visited ⊆ (splitTrace trace).permutations := fun v hv => List.mem_permutations.2 (hperm v hv)
  have hle := (hnodup.subperm hsub).length_le
  rwa [List.length_permutations, splitTrace, List.length_mapIdx] at hle

/-- the orders that have been visited do not come again -/
structure Unvisited (trace : List Symbol) (s : Solver Assignment) (visited : List (List TraceLocation)) : Prop where
  nodup : visited.Nodup
  perm : ∀ v ∈ visited, v.Perm (splitTrace trace)
  keeps : ∀ x, s.Feasible [] x → KeepsThreadOrder trace x
  notMem : ∀ x, s.Feasible [] x → reordered trace x ∉ visited

/-- blocking a part of the class of a model visits its order -/
theorem Unvisited.block {visited : List (List TraceLocation)} (h : Unvisited trace s visited) {m : Assignment}
    (hm : s.Feasible [] m) {waitNotify : Bool} {c : Conj ConstraintAtom}
    (hc : c ⊆ findOrder ids threads trace m waitNotify) :
    Unvisited trace (s.add fun a => !makeConj c a) (reordered trace m :: visited) where
  nodup := List.nodup_cons.2 ⟨h.notMem m hm, h.nodup⟩
  perm := by
    intro v hv
    rcases List.mem_cons.1 hv with rfl | hv
    · exact orderBy_perm _ _
    · exact h.perm v hv
  keeps := fun x hx => h.keeps x (Solver.feasible_add.1 hx).1
  notMem := by
    intro x hx hmem
    obtain ⟨hx, hnot⟩ := Solver.feasible_add.1 hx
    rcases List.mem_cons.1 hmem with heq | hmem
    · -- sorted in the same way, `x` is in the class
      have hclass : makeConj c x = true := makeConj_iff.2 fun ca hca =>
        makeConj_iff.1 (makeConj_findOrder_congr (h.keeps m hm) (h.keeps x hx) heq.symm) ca (hc hca)
      simp [hclass] at hnot
    · exact h.notMem x hx hmem

theorem goodLoop_isSome {visited : List (List TraceLocation)} (h : Unvisited trace s visited)
    (hfuel : trace.length.factorial < fuel + visited.length) :
    (goodLoop z3 ids threads trace fuel s acc).isSome = true := by
  induction fuel generalizing s acc visited with
  | zero =>
    have := length_le_factorial h.nodup h.perm
    omega
  | succ fuel ih =>
    rw [goodLoop]
    split
    · rfl
    · rename_i m hm
      refine ih (h.block (z3.sound _ _ _ hm) (List.Subset.refl _)) ?_
      rw [List.length_cons]
      omega

theorem badLoop_isSome {visited : List (List TraceLocation)} (h : Unvisited trace s visited)
    (hfuel : trace.length.factorial < fuel + visited.length) :
    (badLoop z3 ids threads trace fuel s weak acc).isSome = true := by
  induction fuel generalizing s weak acc visited with
  | zero =>
    have := length_le_factorial h.nodup h.perm
    omega
  | succ fuel ih =>
    rw [badLoop]
    split
    · rfl
    · rename_i m hm
      refine ih (h.block (z3.sound _ _ _ hm) minUnsat_sublist.subset) ?_
      rw [List.length_cons]
      omega

/-! ## What the loops find -/

/-- each class is that of a model, and each model is in one of them -/
theorem goodLoop_spec (h : goodLoop z3 ids threads trace fuel s acc = some D) :
    ∃ new, D = acc ++ new ∧
      (∀ c ∈ new, ∃ m ∈ goodModels z3 ids threads trace fuel s, s.Feasible [] m ∧
        c = findOrder ids threads trace m false) ∧
      ∀ x, s.Feasible [] x → ∃ c ∈ new, makeConj c x = true := by
  induction fuel generalizing s acc with
  | zero => simp [goodLoop] at h
  | succ fuel ih =>
    rw [goodLoop] at h
    split at h
    · rename_i hnone
      refine ⟨[], by simpa using h.symm, by simp, fun x hx => absurd hx (z3.complete _ _ hnone x)⟩
    · rename_i m hm
      obtain ⟨new, hD, hnew, hall⟩ := ih h
      rw [goodModels, hm]
      refine ⟨findOrder ids threads trace m false :: new, by rw [hD]; simp, fun c hc => ?_, fun x hx => ?_⟩
      · rcases List.mem_cons.1 hc with rfl | hc
        · exact ⟨m, List.mem_cons_self, z3.sound _ _ _ hm, rfl⟩
        · obtain ⟨m', hmem, hm', hc'⟩ := hnew c hc
          exact ⟨m', List.mem_cons_of_mem _ hmem, (Solver.feasible_add.1 hm').1, hc'⟩
      · by_cases hin : makeConj (findOrder ids threads trace m false) x = true
        · exact ⟨_, List.mem_cons_self, hin⟩
        · obtain ⟨c, hc, hcx⟩ := hall x (Solver.feasible_add.2 ⟨hx, by simpa using hin⟩)
          exact ⟨c, List.mem_cons_of_mem _ hc, hcx⟩

/-- each class is a part of the class of the model of a round, and the weak solver cannot satisfy it if the round says
so; each model is in one of them -/
theorem badLoop_spec (h : badLoop z3 ids threads trace fuel s weak acc = some D) :
    ∃ new, D = acc ++ new ∧
      (∀ c ∈ new, ∃ q ∈ badRounds z3 ids threads trace fuel s weak, s.Feasible [] q.1 ∧
        c.Sublist (findOrder ids threads trace q.1 true) ∧
        (q.2 = true → ∀ x, weak.Feasible [] x → makeConj c x = false)) ∧
      ∀ x, s.Feasible [] x → ∃ c ∈ new, makeConj c x = true := by
  induction fuel generalizing s weak acc with
  | zero => simp [badLoop] at h
  | succ fuel ih =>
    rw [badLoop] at h
    split at h
    · rename_i hnone
      refine ⟨[], by simpa using h.symm, by simp, fun x hx => absurd hx (z3.complete _ _ hnone x)⟩
    · rename_i m hm
      rw [badRounds, hm]
      set r := minUnsat z3 weak (findOrder ids threads trace m true) ConstraintAtom.expr with hr
      obtain ⟨new, hD, hnew, hall⟩ := ih h
      refine ⟨r.2.1 :: new, by rw [hD]; simp, fun c hc => ?_, fun x hx => ?_⟩
      · rcases List.mem_cons.1 hc with rfl | hc
        · refine ⟨(m, r.1), List.mem_cons_self, z3.sound _ _ _ hm, minUnsat_sublist, fun hok x hx => ?_⟩
          obtain ⟨ca, hca, hf⟩ := minUnsat_true hok hx
          exact List.all_eq_false.2 ⟨ca, hca, by simpa using hf⟩
        · obtain ⟨q, hq, hm', hsub, htrue⟩ := hnew c hc
          refine ⟨q, List.mem_cons_of_mem _ hq, (Solver.feasible_add.1 hm').1, hsub, ?_⟩
          simpa only [hr, feasible_minUnsat] using htrue
      · by_cases hin : makeConj r.2.1 x = true
        · exact ⟨_, List.mem_cons_self, hin⟩
        · obtain ⟨c, hc, hcx⟩ := hall x (Solver.feasible_add.2 ⟨hx, by simpa using hin⟩)
          exact ⟨c, List.mem_cons_of_mem _ hc, hcx⟩

/-! ## The result -/

/-- an ordering that the constraints of the trace allow: that of a concurrent execution with the locks found so far -/
structure Allowed (ids : Identifiers) (threads : ℕ) (trace : List Symbol) (synthesisedLocks : LockSymbols)
    (a : Assignment) : Prop where
  threadOrder : threadOrder threads trace a = true
  distinct : distinct trace a = true
  locks : ∀ e, locks ids threads trace = some e → e a = true
  conditionals : conditionals ids threads trace a = true
  synthLocks : synthLocks trace synthesisedLocks a = true

variable {L : LockSymbols}

theorem Allowed.keeps {a : Assignment} (h : Allowed ids threads trace L a) (hw : OfThreads threads trace) :
    KeepsThreadOrder trace a := keepsThreadOrder_of hw h.threadOrder h.distinct

theorem feasible_slvBad {lk : Expr} (hlk : locks ids threads trace = some lk) {a : Assignment} :
    (slvBad ids threads trace lk L).Feasible [] a ↔ Allowed ids threads trace L a := by
  simp only [Solver.feasible_nil, slvBad, List.forall_mem_cons, List.not_mem_nil, false_imp_iff, implies_true, and_true]
  constructor
  · intro h
    obtain ⟨ho, hd, hl, hc, hs⟩ := h
    exact ⟨ho, hd, fun e he => by rwa [← Option.some.inj (hlk.symm.trans he)], hc, hs⟩
  · intro h
    obtain ⟨ho, hd, hl, hc, hs⟩ := h
    exact ⟨ho, hd, hl lk hlk, hc, hs⟩

theorem feasible_slvGood {lk : Expr} (hlk : locks ids threads trace = some lk) {a : Assignment} :
    (slvGood ids threads trace lk L).Feasible [] a ↔
      Allowed ids threads trace L a ∧ sequential threads trace a = true := by
  rw [← feasible_slvBad hlk]
  simp only [Solver.feasible_nil, slvGood, slvBad, List.forall_mem_cons, List.not_mem_nil, false_imp_iff, implies_true,
    and_true]
  tauto

/-- **The enumeration is total.** -/
theorem processTrace_isSome (hw : OfThreads threads trace) (hlocks : (locks ids threads trace).isSome = true)
    (hfuel : trace.length.factorial < fuel) : (processTrace z3 ids threads trace fuel L).isSome = true := by
  obtain ⟨lk, hlk⟩ := Option.isSome_iff_exists.1 hlocks
  have hunvisited : ∀ s : Solver Assignment, (∀ a, s.Feasible [] a → Allowed ids threads trace L a) →
      Unvisited trace s [] := fun s hs => ⟨List.nodup_nil, by simp, fun x hx => (hs x hx).keeps hw, by simp⟩
  have hf : trace.length.factorial < fuel + ([] : List (List TraceLocation)).length := by simpa using hfuel
  have hgood : (goodLoop z3 ids threads trace fuel (slvGood ids threads trace lk L) []).isSome = true :=
    goodLoop_isSome (hunvisited _ fun a ha => ((feasible_slvGood hlk).1 ha).1) hf
  obtain ⟨seq, hseq⟩ := Option.isSome_iff_exists.1 hgood
  have hbad : (badLoop z3 ids threads trace fuel ((slvBad ids threads trace lk L).add fun a => !makeDnf seq a)
      (slvGoodWeak threads trace lk L) []).isSome = true :=
    badLoop_isSome (hunvisited _ fun a ha => (feasible_slvBad hlk).1 (Solver.feasible_add.1 ha).1) hf
  obtain ⟨bad, hbad⟩ := Option.isSome_iff_exists.1 hbad
  simp only [processTrace, hlk, hseq, hbad, Option.bind_eq_bind, Option.bind_some, Option.isSome_some]

/-- an allowed ordering in which no sequential one orders the conflicting accesses in the same way -/
def IsBad (ids : Identifiers) (threads : ℕ) (trace : List Symbol) (synthesisedLocks : LockSymbols)
    (m : Assignment) : Prop :=
  Allowed ids threads trace synthesisedLocks m ∧
    ∀ g, Allowed ids threads trace synthesisedLocks g → sequential threads trace g = true → ¬SameOrder trace g m

section

variable {lk : Expr} (hw : OfThreads threads trace) (hlk : locks ids threads trace = some lk)
  {seqTraces : Dnf ConstraintAtom}
  (hseq : goodLoop z3 ids threads trace fuel (slvGood ids threads trace lk L) [] = some seqTraces) {x : Assignment}
include hw hlk hseq

/-- once the sequential classes are blocked, the models of the bad solver are bad orderings -/
theorem isBad_of_feasible (hx : ((slvBad ids threads trace lk L).add fun a => !makeDnf seqTraces a).Feasible [] x) :
    IsBad ids threads trace L x := by
  obtain ⟨new, hnew, hmodels, hall⟩ := goodLoop_spec hseq
  rw [List.nil_append] at hnew
  rw [Solver.feasible_add, feasible_slvBad hlk, Bool.not_eq_true', hnew] at hx
  obtain ⟨hx, hnot⟩ := hx
  refine ⟨hx, fun g hg hs hsame => ?_⟩
  -- `g` is in the class of a model that was found, and so is `x`
  obtain ⟨c, hc, hcg⟩ := hall g ((feasible_slvGood hlk).2 ⟨hg, hs⟩)
  obtain ⟨m, -, hm, rfl⟩ := hmodels c hc
  have hm := ((feasible_slvGood hlk).1 hm).1.keeps hw
  have hfixed := ((class_iff hm (hg.keeps hw)).1 hcg).congr (hx.keeps hw) hsame
  exact List.any_eq_false.1 hnot _ hc ((class_iff hm (hx.keeps hw)).2 hfixed)

/-- a bad ordering is one of them, unless it keeps what a sequential model of another order fixes -/
theorem feasible_of_isBad (hx : IsBad ids threads trace L x)
    (hfixed : ∀ m ∈ goodModels z3 ids threads trace fuel (slvGood ids threads trace lk L),
      KeepsFixed trace m x → SameOrder trace m x) :
    ((slvBad ids threads trace lk L).add fun a => !makeDnf seqTraces a).Feasible [] x := by
  obtain ⟨new, hnew, hmodels, -⟩ := goodLoop_spec hseq
  rw [List.nil_append] at hnew
  rw [Solver.feasible_add, feasible_slvBad hlk, Bool.not_eq_true', hnew]
  refine ⟨hx.1, List.any_eq_false.2 fun c hc hcx => ?_⟩
  obtain ⟨m, hmem, hm, rfl⟩ := hmodels c hc
  have hm := (feasible_slvGood hlk).1 hm
  exact hx.2 m hm.1 hm.2 (hfixed m hmem ((class_iff (hm.1.keeps hw) (hx.1.keeps hw)).1 hcx))

end

/-- **The result of the enumeration.** The bad classes are parts of classes of bad orderings. A bad ordering is in one
of them, unless it keeps what the model of a sequential trace of another order fixes. -/
theorem processTrace_spec (hw : OfThreads threads trace) (h : processTrace z3 ids threads trace fuel L = some D) :
    ∃ lk seqTraces, locks ids threads trace = some lk ∧
      goodLoop z3 ids threads trace fuel (slvGood ids threads trace lk L) [] = some seqTraces ∧
      (∀ c ∈ D, ∃ q ∈ badRounds z3 ids threads trace fuel
          ((slvBad ids threads trace lk L).add fun a => !makeDnf seqTraces a) (slvGoodWeak threads trace lk L),
        IsBad ids threads trace L q.1 ∧ c.Sublist (findOrder ids threads trace q.1 true) ∧
          (q.2 = true → ∀ x, (slvGoodWeak threads trace lk L).Feasible [] x → makeConj c x = false)) ∧
      ∀ p, IsBad ids threads trace L p →
        (∀ m ∈ goodModels z3 ids threads trace fuel (slvGood ids threads trace lk L),
          KeepsFixed trace m p → SameOrder trace m p) → ∃ c ∈ D, makeConj c p = true := by
  simp only [processTrace, Option.bind_eq_bind, Option.bind_eq_some_iff] at h
  obtain ⟨lk, hlk, seq, hseq, bad, hbad, hD⟩ := h
  obtain ⟨new, hnew, hbads, hall⟩ := badLoop_spec hbad
  rw [List.nil_append] at hnew
  subst hnew
  have hD := Option.some.inj hD
  refine ⟨lk, seq, hlk, hseq, fun c hc => ?_, fun p hp hfixed => ?_⟩
  · rw [← hD] at hc
    obtain ⟨q, hq, hm, hsub, htrue⟩ := hbads c (minUnsat_sublist.subset hc)
    exact ⟨q, hq, isBad_of_feasible hw hlk hseq hm, hsub, htrue⟩
  · have hp' := feasible_of_isBad hw hlk hseq hp hfixed
    rw [← hD]
    cases hok : (minUnsat z3 ((slvBad ids threads trace lk L).add fun a => !makeDnf seq a) bad
        fun c a => !makeConj c a).1 with
    | true =>
      obtain ⟨c, hc, hf⟩ := minUnsat_true hok hp'
      exact ⟨c, hc, by simpa using hf⟩
    | false =>
      obtain ⟨heq, -⟩ := minUnsat_false hok
      rw [heq]
      exact hall p hp'

/-! ## A write between two writes -/

/-- `x=1; x=2;` and `x=3;` -/
def raceIds : Identifiers := ⟨1, 0, 0⟩

def firstWrite : Symbol := { operation := .write, var := 0, loc := ⟨0, 3⟩ }
def secondWrite : Symbol := { operation := .write, var := 0, loc := ⟨0, 4⟩ }
def otherWrite : Symbol := { operation := .write, var := 0, loc := ⟨1, 3⟩ }

def raceTrace : List Symbol := [firstWrite, otherWrite, secondWrite]

def ofList (l : List ℤ) : Assignment := fun i => l.getD i 0

/-- the other write first, last, and in between -/
def otherFirst : Assignment := ofList [1, 0, 2, 3]
def otherLast : Assignment := ofList [0, 2, 1, 3]
def between : Assignment := ofList [0, 1, 2, 3]

theorem raceTrace_threads : OfThreads 2 raceTrace := by
  unfold OfThreads
  decide

theorem allowed_race {a : Assignment} (ho : threadOrder 2 raceTrace a = true) (hd : distinct raceTrace a = true) :
    Allowed raceIds 2 raceTrace [] a where
  threadOrder := ho
  distinct := hd
  locks := by
    intro e he
    have hlocks : locks raceIds 2 raceTrace =
        some fun a => ([] : List (List LockPair)).all fun prs => exclusive raceTrace prs a := rfl
    rw [hlocks] at he
    rw [← Option.some.inj he]
    rfl
  conditionals := rfl
  synthLocks := rfl

/-- the two steps of the first thread are one after the other, and the other write has a place of its own -/
theorem race_order {x : Assignment} (hx : Allowed raceIds 2 raceTrace [] x) : x 0 < x 2 ∧ x 0 ≠ x 1 ∧ x 1 ≠ x 2 := by
  have hk := hx.keeps raceTrace_threads
  refine ⟨hk.order ⟨firstWrite, 0⟩ (by decide) ⟨secondWrite, 2⟩ (by decide) rfl (by decide), fun h => ?_, fun h => ?_⟩
  · exact absurd (hk.injective ⟨firstWrite, 0⟩ (by decide) ⟨otherWrite, 1⟩ (by decide) h) (by decide)
  · exact absurd (hk.injective ⟨otherWrite, 1⟩ (by decide) ⟨secondWrite, 2⟩ (by decide) h) (by decide)

theorem race_step {x : Assignment} (hs : sequential 2 raceTrace x = true) : x 2 = x 0 + 1 := by
  simp only [sequential, List.all_eq_true, List.mem_range] at hs
  have hstep := hs 0 (by decide) (⟨firstWrite, 0⟩, ⟨secondWrite, 2⟩) (by decide)
  simpa [seqCondition, firstWrite, secondWrite] using hstep

/-- the classes of the two sequential orderings, and that of the one in between -/
def firstClass : Conj ConstraintAtom :=
  [⟨⟨otherWrite, 1⟩, ⟨firstWrite, 0⟩, false⟩, ⟨⟨firstWrite, 0⟩, ⟨secondWrite, 2⟩, false⟩]
def lastClass : Conj ConstraintAtom :=
  [⟨⟨firstWrite, 0⟩, ⟨secondWrite, 2⟩, false⟩, ⟨⟨firstWrite, 0⟩, ⟨otherWrite, 1⟩, false⟩,
    ⟨⟨secondWrite, 2⟩, ⟨otherWrite, 1⟩, false⟩]
def betweenClass : Conj ConstraintAtom :=
  [⟨⟨firstWrite, 0⟩, ⟨otherWrite, 1⟩, false⟩, ⟨⟨firstWrite, 0⟩, ⟨secondWrite, 2⟩, false⟩,
    ⟨⟨otherWrite, 1⟩, ⟨secondWrite, 2⟩, false⟩]

theorem firstClass_iff {x : Assignment} : makeConj firstClass x = true ↔ x 1 < x 0 ∧ x 0 < x 2 := by
  simp [makeConj_iff, firstClass]

theorem lastClass_iff {x : Assignment} : makeConj lastClass x = true ↔ x 0 < x 2 ∧ x 0 < x 1 ∧ x 2 < x 1 := by
  simp [makeConj_iff, lastClass]

theorem betweenClass_iff {x : Assignment} : makeConj betweenClass x = true ↔ x 0 < x 1 ∧ x 0 < x 2 ∧ x 1 < x 2 := by
  simp [makeConj_iff, betweenClass]

/-- the solver prefers small values for the sequential orderings, and `m` for a bad one -/
noncomputable def raceOracle (m : Assignment) : Oracle Assignment := .preferring [otherFirst, otherLast, m]

/-- no lock is used -/
def raceLocks : Expr := fun a => ([] : List (List LockPair)).all fun prs => exclusive raceTrace prs a

theorem locks_race : locks raceIds 2 raceTrace = some raceLocks := rfl

/-- the sequential orderings are found in two rounds -/
theorem race_goodLoop (m : Assignment) (fuel : ℕ) :
    goodLoop (raceOracle m) raceIds 2 raceTrace (fuel + 3) (slvGood raceIds 2 raceTrace raceLocks []) [] =
        some [firstClass, lastClass] ∧
      goodModels (raceOracle m) raceIds 2 raceTrace (fuel + 3) (slvGood raceIds 2 raceTrace raceLocks []) =
        [otherFirst, otherLast] := by
  have hgood : ∀ {x : Assignment}, (slvGood raceIds 2 raceTrace raceLocks []).Feasible [] x ↔
      Allowed raceIds 2 raceTrace [] x ∧ sequential 2 raceTrace x = true := feasible_slvGood locks_race
  have hclass1 : findOrder raceIds 2 raceTrace otherFirst false = firstClass := by decide
  have hclass2 : findOrder raceIds 2 raceTrace otherLast false = lastClass := by decide
  have h1 : (raceOracle m).check (slvGood raceIds 2 raceTrace raceLocks []) [] = some otherFirst :=
    Oracle.check_preferring (hgood.2 ⟨allowed_race (by decide) (by decide), by decide⟩)
  have h2 : (raceOracle m).check ((slvGood raceIds 2 raceTrace raceLocks []).add fun a => !makeConj firstClass a) [] =
      some otherLast := by
    refine (Oracle.check_preferring_next fun h => ?_).trans (Oracle.check_preferring ?_)
    · exact absurd (Solver.feasible_add.1 h).2 (by decide)
    · exact Solver.feasible_add.2 ⟨hgood.2 ⟨allowed_race (by decide) (by decide), by decide⟩, by decide⟩
  have h3 : (raceOracle m).check (((slvGood raceIds 2 raceTrace raceLocks []).add fun a => !makeConj firstClass a).add
      fun a => !makeConj lastClass a) [] = none := by
    refine Oracle.check_eq_none _ fun x hx => ?_
    obtain ⟨hx, hlast⟩ := Solver.feasible_add.1 hx
    obtain ⟨hx, hfirst⟩ := Solver.feasible_add.1 hx
    obtain ⟨ha, hs⟩ := hgood.1 hx
    rw [Bool.not_eq_true', Bool.eq_false_iff, ne_eq, firstClass_iff] at hfirst
    rw [Bool.not_eq_true', Bool.eq_false_iff, ne_eq, lastClass_iff] at hlast
    have := race_order ha
    have := race_step hs
    omega
  constructor
  · simp [goodLoop, h1, h2, h3, hclass1, hclass2]
  · simp [goodModels, h1, h2, h3, hclass1, hclass2]

theorem captured_race : ∀ m ∈ [otherFirst, otherLast, between], Captured raceTrace m := by
  have hread : ∀ m ∈ [otherFirst, otherLast, between], ∀ l ∈ splitTrace raceTrace, IsRead m l := by
    unfold IsRead
    decide
  exact fun m hm => captured_of_read (hread m hm)

/-- the solver of the bad traces, once the two classes are blocked -/
theorem feasible_race {x : Assignment} :
    ((slvBad raceIds 2 raceTrace raceLocks []).add fun a => !makeDnf [firstClass, lastClass] a).Feasible [] x ↔
      Allowed raceIds 2 raceTrace [] x ∧ x 0 < x 1 ∧ x 1 < x 2 := by
  have hbad : ∀ {x : Assignment}, (slvBad raceIds 2 raceTrace raceLocks []).Feasible [] x ↔
      Allowed raceIds 2 raceTrace [] x := feasible_slvBad locks_race
  rw [Solver.feasible_add, hbad]
  refine and_congr_right fun hx => ?_
  have := race_order hx
  rw [Bool.not_eq_true', Bool.eq_false_iff, ne_eq, makeDnf, List.any_cons, List.any_cons, List.any_nil, Bool.or_false,
    Bool.or_eq_true, firstClass_iff, lastClass_iff]
  omega

/-- a bad ordering is found first -/
theorem race_check {m : Assignment} (hm : Allowed raceIds 2 raceTrace [] m) (h01 : m 0 < m 1) (h12 : m 1 < m 2) :
    (raceOracle m).check ((slvBad raceIds 2 raceTrace raceLocks []).add fun a => !makeDnf [firstClass, lastClass] a) [] =
      some m := by
  have hnot : ∀ x ∈ [otherFirst, otherLast], ¬(x 0 < x 1 ∧ x 1 < x 2) := by decide
  refine (Oracle.check_preferring_next fun h => hnot _ (by simp) (feasible_race.1 h).2).trans
    ((Oracle.check_preferring_next fun h => hnot _ (by simp) (feasible_race.1 h).2).trans (Oracle.check_preferring ?_))
  exact feasible_race.2 ⟨hm, h01, h12⟩

end Liss.Synthesis
