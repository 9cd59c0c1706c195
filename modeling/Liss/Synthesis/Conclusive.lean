/-
Whether the bad classes that `process_trace` finds are conclusive: no ordering that runs the threads without preemption
is in one of them, whatever the conditional variables say.

`slv_good_weak`, in which the classes are minimised, has no `conditionals`. The order of waits and notifies in a class
makes up for that: an ordering with the accesses of a bad one satisfies `conditionals` as the bad one does, so it would
be a good ordering, whose class has been blocked before. This needs all of the accesses: a class from which `get_int`
has dropped some may have a good ordering.

- `Apart`, `apart_of_captured`: no good ordering keeps what a bad one fixes; this is so where the bad one is captured;
- `badRounds_iff`: `min_unsat` answers `true` in the rounds whose model is apart, and in no other;
- `enumerate_conclusive`: both loops end, the disjuncts cover the bad orderings, and they are conclusive iff all models
  are apart.
-/
import Liss.Synthesis.ProcessTrace

namespace Liss.Synthesis

variable (z3 : Oracle Assignment) (ids : Identifiers) (threads : ℕ) (trace : List Symbol)

/-- `process_trace` once the trace is prepared, for the constraint `locks` -/
def enumerate (fuel : ℕ) (locks : Expr) (synthesisedLocks : LockSymbols) : Option (Dnf ConstraintAtom) := do
  let seqTraces ← goodLoop z3 ids threads trace fuel (slvGood ids threads trace locks synthesisedLocks) []
  let slvBad := (slvBad ids threads trace locks synthesisedLocks).add fun a => !makeDnf seqTraces a
  let badTracesInt ← badLoop z3 ids threads trace fuel slvBad (slvGoodWeak threads trace locks synthesisedLocks) []
  some (minUnsat z3 slvBad badTracesInt fun c a => !makeConj c a).2.1

variable {z3 ids threads trace} {fuel : ℕ} {s weak : Solver Assignment} {acc D : Dnf ConstraintAtom}
  {seqTraces : Dnf ConstraintAtom} {lk : Expr} {L : LockSymbols}

theorem processTrace_eq (h : locks ids threads trace = some lk) :
    processTrace z3 ids threads trace fuel L = enumerate z3 ids threads trace fuel lk L := by
  rw [processTrace, h]
  rfl

theorem badRounds_none (h : z3.check s [] = none) : badRounds z3 ids threads trace fuel s weak = [] := by
  cases fuel with
  | zero => rfl
  | succ fuel => rw [badRounds, h]

theorem badRounds_some {m : Assignment} (h : z3.check s [] = some m) :
    badRounds z3 ids threads trace (fuel + 1) s weak =
      (m, (minUnsat z3 weak (findOrder ids threads trace m true) ConstraintAtom.expr).1) ::
        badRounds z3 ids threads trace fuel
          (s.add fun a => !makeConj (minUnsat z3 weak (findOrder ids threads trace m true) ConstraintAtom.expr).2.1 a)
          (minUnsat z3 weak (findOrder ids threads trace m true) ConstraintAtom.expr).2.2 := by
  rw [badRounds, h]

/-- there is one round for each class that is found -/
theorem length_badRounds (h : badLoop z3 ids threads trace fuel s weak acc = some D) :
    D.length = acc.length + (badRounds z3 ids threads trace fuel s weak).length := by
  induction fuel generalizing s weak acc with
  | zero => simp [badLoop] at h
  | succ fuel ih =>
    rw [badLoop] at h
    rw [badRounds]
    cases hcheck : z3.check s [] with
    | none =>
      rw [hcheck] at h
      simp [Option.some.inj h]
    | some model =>
      rw [hcheck] at h
      have hlen := ih h
      simp only [List.length_append, List.length_cons, List.length_nil] at hlen ⊢
      omega

/-! ## One round -/

/-- the orderings that the solver of the bad traces allows, once the sequential classes are blocked -/
def badModels (ids : Identifiers) (threads : ℕ) (trace : List Symbol) (locks : Expr) (synthesisedLocks : LockSymbols)
    (seqTraces : Dnf ConstraintAtom) : Solver Assignment :=
  (slvBad ids threads trace locks synthesisedLocks).add fun a => !makeDnf seqTraces a

theorem feasible_badModels {x : Assignment} : (badModels ids threads trace lk L seqTraces).Feasible [] x ↔
    (slvBad ids threads trace lk L).Feasible [] x ∧ makeDnf seqTraces x = false := by
  rw [badModels, Solver.feasible_add, Bool.not_eq_true']

theorem keeps_of_slvBad (hw : OfThreads threads trace) {x : Assignment}
    (h : (slvBad ids threads trace lk L).Feasible [] x) :
    KeepsThreadOrder trace x ∧ conditionals ids threads trace x = true := by
  have hall := Solver.feasible_nil.1 h
  exact ⟨keepsThreadOrder_of hw (hall _ (by simp [slvBad])) (hall _ (by simp [slvBad])), hall _ (by simp [slvBad])⟩

theorem keeps_of_slvGood (hw : OfThreads threads trace) {x : Assignment}
    (h : (slvGood ids threads trace lk L).Feasible [] x) : KeepsThreadOrder trace x := by
  have hall := Solver.feasible_nil.1 h
  exact keepsThreadOrder_of hw (hall _ (by simp [slvGood])) (hall _ (by simp [slvGood]))

theorem keeps_of_slvGoodWeak (hw : OfThreads threads trace) {x : Assignment}
    (h : (slvGoodWeak threads trace lk L).Feasible [] x) : KeepsThreadOrder trace x := by
  have hall := Solver.feasible_nil.1 h
  exact keepsThreadOrder_of hw (hall _ (by simp [slvGoodWeak])) (hall _ (by simp [slvGoodWeak]))

/-- the conditionals are what the weak solver lacks -/
theorem feasible_slvGood_iff {x : Assignment} : (slvGood ids threads trace lk L).Feasible [] x ↔
    (slvGoodWeak threads trace lk L).Feasible [] x ∧ conditionals ids threads trace x = true := by
  simp only [Solver.feasible_nil, slvGood, slvGoodWeak, List.forall_mem_cons, List.not_mem_nil, false_imp_iff,
    implies_true, and_true]
  tauto

/-- no weakly good ordering keeps what an ordering fixes, the order of waits and notifies included -/
def Apart (ids : Identifiers) (threads : ℕ) (trace : List Symbol) (locks : Expr) (synthesisedLocks : LockSymbols)
    (m : Assignment) : Prop :=
  ∀ x, (slvGoodWeak threads trace locks synthesisedLocks).Feasible [] x → KeepsFixed trace m x →
    ∃ i < ids.noConditionals, ¬AgreeOn threads trace m x i

theorem apart_iff (hw : OfThreads threads trace) {m : Assignment} (hm : KeepsThreadOrder trace m) :
    Apart ids threads trace lk L m ↔ ∀ x, (slvGoodWeak threads trace lk L).Feasible [] x →
      makeConj (findOrder ids threads trace m true) x = false := by
  refine forall_congr' fun x => imp_congr_right fun hx => ?_
  rw [Bool.eq_false_iff, ne_eq, class_iff_agreeOn hm (keeps_of_slvGoodWeak hw hx)]
  simp only [not_and, not_forall, exists_prop]

/-- **A bad ordering that is captured** is apart. -/
theorem apart_of_captured (hw : OfThreads threads trace)
    (hseq : goodLoop z3 ids threads trace fuel (slvGood ids threads trace lk L) [] = some seqTraces) {m : Assignment}
    (hm : (badModels ids threads trace lk L seqTraces).Feasible [] m) (hcap : Captured trace m) :
    Apart ids threads trace lk L m := by
  obtain ⟨hbad, hblocked⟩ := feasible_badModels.1 hm
  obtain ⟨hmk, hmc⟩ := keeps_of_slvBad hw hbad
  rw [apart_iff hw hmk]
  intro x hx
  by_contra hclass
  rw [Bool.not_eq_false] at hclass
  have hxk := keeps_of_slvGoodWeak hw hx
  have hsame := (keepsFixed_of_class hmk hxk hclass).sameOrder hmk hxk hcap
  have hcond := conditionals_of_findOrder hmk hxk hclass
  -- so `x` is a good ordering, and in a class that was found
  have hgood : (slvGood ids threads trace lk L).Feasible [] x := feasible_slvGood_iff.2 ⟨hx, hcond.symm.trans hmc⟩
  obtain ⟨new, hnew, hmodels, hall⟩ := goodLoop_spec hseq
  rw [List.nil_append] at hnew
  obtain ⟨c, hc, hcx⟩ := hall x hgood
  obtain ⟨m', -, hm', rfl⟩ := hmodels c hc
  -- the bad ordering is in this class too
  have hm' := keeps_of_slvGood hw hm'
  have hfixed := ((class_iff hm' hxk).1 hcx).congr hmk hsame.symm
  rw [hnew] at hblocked
  exact List.any_eq_false.1 hblocked _ hc ((class_iff hm' hmk).2 hfixed)

theorem minUnsat_iff {c : Conj ConstraintAtom} :
    (minUnsat z3 weak c ConstraintAtom.expr).1 = true ↔ ∀ x, weak.Feasible [] x → makeConj c x = false := by
  constructor
  · intro hok x hx
    obtain ⟨ca, hca, hf⟩ := minUnsat_true hok hx
    exact List.all_eq_false.2 ⟨ca, minUnsat_sublist.subset hca, by simpa using hf⟩
  · intro hall
    by_contra hok
    obtain ⟨-, x, hx, hsat⟩ := minUnsat_false (Bool.not_eq_true _ ▸ hok)
    have hclass : makeConj c x = true := by simpa [makeConj] using hsat
    rw [hall x hx] at hclass
    exact Bool.false_ne_true hclass

/-! ## The loop -/

/-- the models are those of the solver -/
theorem badRounds_feasible : ∀ q ∈ badRounds z3 ids threads trace fuel s weak, s.Feasible [] q.1 := by
  induction fuel generalizing s weak with
  | zero => simp [badRounds]
  | succ fuel ih =>
    rw [badRounds]
    split
    · simp
    · rename_i m hm
      intro q hq
      rcases List.mem_cons.1 hq with rfl | hq
      · exact z3.sound _ _ _ hm
      · exact (Solver.feasible_add.1 (ih q hq)).1

/-- the answers of `min_unsat`, in every solver with the models of `slv_good_weak` -/
theorem badRounds_iff (hw : OfThreads threads trace) (hs : ∀ x, s.Feasible [] x → KeepsThreadOrder trace x)
    (hweak : ∀ x, weak.Feasible [] x ↔ (slvGoodWeak threads trace lk L).Feasible [] x) :
    ∀ q ∈ badRounds z3 ids threads trace fuel s weak, q.2 = true ↔ Apart ids threads trace lk L q.1 := by
  induction fuel generalizing s weak with
  | zero => simp [badRounds]
  | succ fuel ih =>
    rw [badRounds]
    split
    · simp
    · rename_i m hm
      intro q hq
      rcases List.mem_cons.1 hq with rfl | hq
      · rw [minUnsat_iff, apart_iff hw (hs m (z3.sound _ _ _ hm))]
        exact forall_congr' fun x => by rw [hweak]
      · refine ih (fun x hx => hs x (Solver.feasible_add.1 hx).1) (fun x => ?_) q hq
        rw [feasible_minUnsat, hweak]

theorem unvisited_nil (hs : ∀ x, s.Feasible [] x → KeepsThreadOrder trace x) : Unvisited trace s [] :=
  ⟨List.nodup_nil, by simp, hs, by simp⟩

/-! ## The result -/

/-- what `process_trace` does with a prepared trace -/
structure Enumerated (z3 : Oracle Assignment) (ids : Identifiers) (threads : ℕ) (trace : List Symbol) (fuel : ℕ)
    (lk : Expr) (L : LockSymbols) (seqTraces bad D : Dnf ConstraintAtom) : Prop where
  goodEnds : goodLoop z3 ids threads trace fuel (slvGood ids threads trace lk L) [] = some seqTraces
  badEnds : badLoop z3 ids threads trace fuel (badModels ids threads trace lk L seqTraces)
    (slvGoodWeak threads trace lk L) [] = some bad
  calls : bad.length = (badRounds z3 ids threads trace fuel (badModels ids threads trace lk L seqTraces)
    (slvGoodWeak threads trace lk L)).length
  result : enumerate z3 ids threads trace fuel lk L = some D
  prepared : locks ids threads trace = some lk → processTrace z3 ids threads trace fuel L = some D
  cover : ∀ p, (slvBad ids threads trace lk L).Feasible [] p → makeDnf seqTraces p = false → makeDnf D p = true

/-- what is conclusive in it: the answers of `min_unsat`, however many rounds there are, and the disjuncts -/
structure Conclusive (z3 : Oracle Assignment) (ids : Identifiers) (threads : ℕ) (trace : List Symbol) (fuel : ℕ)
    (lk : Expr) (L : LockSymbols) (seqTraces D : Dnf ConstraintAtom) : Prop where
  answers : ∀ q ∈ badRounds z3 ids threads trace fuel (badModels ids threads trace lk L seqTraces)
    (slvGoodWeak threads trace lk L), q.2 = true
  unsat : ∀ c ∈ D, ∀ x, (slvGoodWeak threads trace lk L).Feasible [] x → makeConj c x = false

/-- **The enumeration ends and covers the bad orderings, and it is conclusive iff the models of the bad traces are
apart**, for whatever constraint `locks` the trace has. Those that are captured are apart. -/
theorem enumerate_conclusive (z3 : Oracle Assignment) (ids : Identifiers) (hw : OfThreads threads trace) (lk : Expr)
    (L : LockSymbols) (hfuel : trace.length.factorial < fuel) :
    ∃ seqTraces bad D, Enumerated z3 ids threads trace fuel lk L seqTraces bad D ∧
      (Conclusive z3 ids threads trace fuel lk L seqTraces D ↔
        ∀ q ∈ badRounds z3 ids threads trace fuel (badModels ids threads trace lk L seqTraces)
          (slvGoodWeak threads trace lk L), Apart ids threads trace lk L q.1) ∧
      ∀ q ∈ badRounds z3 ids threads trace fuel (badModels ids threads trace lk L seqTraces)
        (slvGoodWeak threads trace lk L), Captured trace q.1 → Apart ids threads trace lk L q.1 := by
  have hf : trace.length.factorial < fuel + ([] : List (List TraceLocation)).length := by simpa using hfuel
  have hkeeps : ∀ {seqTraces x}, (badModels ids threads trace lk L seqTraces).Feasible [] x →
      KeepsThreadOrder trace x := fun hx => (keeps_of_slvBad hw (feasible_badModels.1 hx).1).1
  have hgood : (goodLoop z3 ids threads trace fuel (slvGood ids threads trace lk L) []).isSome = true :=
    goodLoop_isSome (unvisited_nil fun x hx => keeps_of_slvGood hw hx) hf
  obtain ⟨seqTraces, hseq⟩ := Option.isSome_iff_exists.1 hgood
  have hbad : (badLoop z3 ids threads trace fuel (badModels ids threads trace lk L seqTraces)
      (slvGoodWeak threads trace lk L) []).isSome = true := badLoop_isSome (unvisited_nil fun x hx => hkeeps hx) hf
  obtain ⟨bad, hbad⟩ := Option.isSome_iff_exists.1 hbad
  obtain ⟨new, hnew, hclasses, hcover⟩ := badLoop_spec hbad
  rw [List.nil_append] at hnew
  subst hnew
  set r := minUnsat z3 (badModels ids threads trace lk L seqTraces) bad (fun c a => !makeConj c a) with hr
  have henum : enumerate z3 ids threads trace fuel lk L = some r.2.1 := by
    unfold badModels at hbad
    simp only [enumerate, hseq, hbad, Option.bind_eq_bind, Option.bind_some]
    rfl
  have hanswers : ∀ q ∈ badRounds z3 ids threads trace fuel (badModels ids threads trace lk L seqTraces)
      (slvGoodWeak threads trace lk L), q.2 = true ↔ Apart ids threads trace lk L q.1 :=
    badRounds_iff hw (fun x hx => hkeeps hx) fun _ => Iff.rfl
  refine ⟨seqTraces, bad, r.2.1, ⟨hseq, hbad, by simpa using length_badRounds hbad, henum,
    fun hlk => by rw [processTrace_eq hlk, henum], fun p hp hnot => ?_⟩, ⟨fun hcon q hq => ?_, fun hapart => ?_⟩,
    fun q hq hcap => ?_⟩
  · have hp' := feasible_badModels.2 ⟨hp, hnot⟩
    cases hok : r.1 with
    | true =>
      obtain ⟨c, hc, hf⟩ := minUnsat_true hok hp'
      exact List.any_eq_true.2 ⟨c, hc, by simpa using hf⟩
    | false =>
      obtain ⟨heq, -⟩ := minUnsat_false hok
      rw [hr, heq]
      exact List.any_eq_true.2 (hcover p hp')
  · exact (hanswers q hq).1 (hcon.answers q hq)
  · refine ⟨fun q hq => (hanswers q hq).2 (hapart q hq), fun c hc => ?_⟩
    obtain ⟨q, hq, -, -, hunsat⟩ := hclasses c (minUnsat_sublist.subset hc)
    exact hunsat ((hanswers q hq).2 (hapart q hq))
  · exact apart_of_captured hw hseq (badRounds_feasible q hq) hcap

/-! ### The write between two writes -/

/-- with small values there is one round -/
theorem race_badRounds (fuel : ℕ) : ∀ q ∈ badRounds (raceOracle between) raceIds 2 raceTrace fuel
    (badModels raceIds 2 raceTrace raceLocks [] [firstClass, lastClass]) (slvGoodWeak 2 raceTrace raceLocks []),
    q.1 = between := by
  have hcheck := race_check (allowed_race (by decide) (by decide) : Allowed raceIds 2 raceTrace [] between) (by decide)
    (by decide)
  have hclass : findOrder raceIds 2 raceTrace between true = betweenClass := by decide
  cases fuel with
  | zero => simp [badRounds]
  | succ fuel =>
    rw [badModels, badRounds_some hcheck, hclass]
    set core := (minUnsat (raceOracle between) (slvGoodWeak 2 raceTrace raceLocks []) betweenClass
      ConstraintAtom.expr).2.1 with hcore
    have hnone : (raceOracle between).check (((slvBad raceIds 2 raceTrace raceLocks []).add
        fun a => !makeDnf [firstClass, lastClass] a).add fun a => !makeConj core a) [] = none := by
      refine Oracle.check_eq_none _ fun x hx => ?_
      obtain ⟨hx, hnot⟩ := Solver.feasible_add.1 hx
      obtain ⟨hx, h01, h12⟩ := feasible_race.1 hx
      have hall := makeConj_iff.1 (betweenClass_iff.2 ⟨h01, h01.trans h12, h12⟩)
      have hblocked : makeConj core x = true := makeConj_iff.2 fun ca hca => hall ca (minUnsat_sublist.subset hca)
      simp [hblocked] at hnot
    simp [badRounds_none hnone]

theorem race_conclusive : ∃ seqTraces bad D,
    Enumerated (raceOracle between) raceIds 2 raceTrace 7 raceLocks [] seqTraces bad D ∧
      Conclusive (raceOracle between) raceIds 2 raceTrace 7 raceLocks [] seqTraces D := by
  have hfuel : raceTrace.length.factorial < 7 := by decide
  obtain ⟨seqTraces, bad, D, henum, hcon, hcap⟩ :=
    enumerate_conclusive (raceOracle between) raceIds raceTrace_threads raceLocks [] hfuel
  refine ⟨seqTraces, bad, D, henum, hcon.2 fun q hq => hcap q hq ?_⟩
  obtain rfl := Option.some.inj (henum.goodEnds.symm.trans (race_goodLoop between 4).1)
  rw [race_badRounds 7 q hq]
  exact captured_race _ (by simp)

/-- the write between the two, where only the value of the first one fits an `int` -/
def farBetween : Assignment := ofList [0, 2 ^ 31, 2 ^ 31 + 1, 2 ^ 31 + 2]

/-- **The class of `farBetween` is empty of constraints**, so that a sequential ordering is in it. -/
theorem farBetween_inconclusive :
    ¬∀ (z3 : Oracle Assignment) (ids : Identifiers) (threads : ℕ) (trace : List Symbol) (fuel : ℕ) (lk : Expr)
      (L : LockSymbols), OfThreads threads trace → trace.length.factorial < fuel →
      ∃ seqTraces bad D, Enumerated z3 ids threads trace fuel lk L seqTraces bad D ∧
        Conclusive z3 ids threads trace fuel lk L seqTraces D := by
  intro hall
  obtain ⟨seqTraces, bad, D, henum, hcon⟩ :=
    hall (raceOracle farBetween) raceIds 2 raceTrace 7 raceLocks [] raceTrace_threads (by decide)
  obtain rfl := Option.some.inj (henum.goodEnds.symm.trans (race_goodLoop farBetween 4).1)
  have hcheck := race_check (allowed_race (by decide) (by decide) : Allowed raceIds 2 raceTrace [] farBetween)
    (by decide) (by decide)
  have hclass : findOrder raceIds 2 raceTrace farBetween true = [] := by decide
  have hok := hcon.answers (farBetween, _) (by rw [badModels, badRounds_some hcheck]; exact List.mem_cons_self)
  rw [hclass] at hok
  have hgood : (slvGood raceIds 2 raceTrace raceLocks []).Feasible [] otherFirst :=
    (feasible_slvGood locks_race).2 ⟨allowed_race (by decide) (by decide), by decide⟩
  exact absurd (minUnsat_iff.1 hok otherFirst (feasible_slvGood_iff.1 hgood).1) (by decide)

end Liss.Synthesis
