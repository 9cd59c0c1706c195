/-
Soundness of the synthesis for one trace: enumeration of the bad classes, their negation, and the locks that are
inferred from it.

- `pipeline_sound`: an ordering in which every clause has a lock whose sections exclude each other orders the
  conflicting accesses as a sequential ordering does, if the classes of the sequential orderings are exact for it;
- `farLast_unsound`: a class from which `get_int` has dropped an access blocks bad orderings with the sequential ones.

If there were no such sequential ordering, the ordering would be in a bad class (`processTrace_spec`); all constraints
of the negated class would be false, and the sections of every lock of the clause would overlap (`lock_overlap`). The
classes are exact for all orderings where the models they come from are captured (`KeepsFixed.sameOrder`).
-/
import Liss.Synthesis.Conclusive
import Liss.Synthesis.Synchronisation

namespace Liss.Synthesis

/-- the sections of a lock exclude each other in an ordering -/
def Lock.Exclusive (lock : Lock) (p : Assignment) : Prop := lock.locations.Pairwise fun x y => ¬Overlap p x y

instance (p : Assignment) (x y : LockLocation) : Decidable (Overlap p x y) := inferInstanceAs (Decidable (_ ∧ _))

instance (lock : Lock) (p : Assignment) : Decidable (lock.Exclusive p) :=
  inferInstanceAs (Decidable (List.Pairwise _ _))

variable {z3 : Oracle Assignment} {fuel : ℕ} {ids : Identifiers} {threads : ℕ} {w : List Symbol} {L : LockSymbols}
  {D : Dnf ConstraintAtom} {p : Assignment}

/-- in a bad class no lock of its negation is exclusive -/
theorem not_exclusive {c : Conj ConstraintAtom} (hp : KeepsThreadOrder w p) (hd : OverTrace w c)
    (hc : makeConj c p = true) {lock : Lock} (hl : lock ∈ inferLocks (c.map ConstraintAtom.neg)) :
    ¬lock.Exclusive p := by
  obtain ⟨allowOnlyWeak, hl⟩ := mem_inferLocks hl
  have hover : OverTrace w (c.map ConstraintAtom.neg) := by
    intro ca hca
    obtain ⟨ca', hca', rfl⟩ := List.mem_map.1 hca
    exact (hd ca' hca').symm
  have hfalse : ∀ ca ∈ c.map ConstraintAtom.neg, p ca.after.position < p ca.before.position := by
    intro ca hca
    obtain ⟨ca', hca', rfl⟩ := List.mem_map.1 hca
    exact makeConj_iff.1 hc ca' hca'
  obtain ⟨x, y, hloc, -, -, ho, -⟩ := lock_overlap hp hover hfalse hl
  rw [Lock.Exclusive, hloc, List.pairwise_pair]
  exact not_not.2 ho

/-- **Soundness of the synthesis for one trace**, for an ordering that keeps what a sequential model fixes only if it has
its order. -/
theorem pipeline_sound (hw : OfThreads threads w) (hD : processTrace z3 ids threads w fuel L = some D)
    (hp : Allowed ids threads w L p) (hlock : ∀ cl ∈ negDnf D, ∃ lock ∈ inferLocks cl, lock.Exclusive p)
    (hfixed : ∀ lk, locks ids threads w = some lk → ∀ m ∈ goodModels z3 ids threads w fuel (slvGood ids threads w lk L),
      KeepsFixed w m p → SameOrder w m p) :
    ∃ g, Allowed ids threads w L g ∧ sequential threads w g = true ∧ SameOrder w g p := by
  by_contra hno
  have hbad : IsBad ids threads w L p := ⟨hp, fun g hg hs hsame => hno ⟨g, hg, hs, hsame⟩⟩
  obtain ⟨lk, seqTraces, hlk, -, hclasses, hcover⟩ := processTrace_spec hw hD
  obtain ⟨c, hc, hcp⟩ := hcover p hbad (hfixed lk hlk)
  obtain ⟨q, -, hm, hsub, -⟩ := hclasses c hc
  have hover : OverTrace w c := by
    intro ca hca
    obtain ⟨hb, ha, -⟩ := mem_findOrder (hm.1.keeps hw) (hsub.subset hca)
    exact ⟨hb, ha⟩
  obtain ⟨lock, hl, hex⟩ := hlock _ (List.mem_map_of_mem hc)
  exact not_exclusive (hp.keeps hw) hover hcp hl hex

/-! ## A write between two writes -/

/-- what is left of the class after minimisation gives a lock around the two writes -/
theorem race_lock : ∀ c ∈ betweenClass.sublists, makeConj c otherFirst = false → makeConj c otherLast = false →
    ∃ lock ∈ inferLocks (c.map ConstraintAtom.neg), lock.Exclusive otherFirst := by
  decide

theorem race_sound :
    ∃ g, Allowed raceIds 2 raceTrace [] g ∧ sequential 2 raceTrace g = true ∧ SameOrder raceTrace g otherFirst := by
  have htotal : (processTrace (raceOracle between) raceIds 2 raceTrace 7 []).isSome = true :=
    processTrace_isSome raceTrace_threads (by decide) (by decide)
  obtain ⟨D, hD⟩ := Option.isSome_iff_exists.1 htotal
  have hfirst : Allowed raceIds 2 raceTrace [] otherFirst := allowed_race (by decide) (by decide)
  have hlast : Allowed raceIds 2 raceTrace [] otherLast := allowed_race (by decide) (by decide)
  refine pipeline_sound raceTrace_threads hD hfirst (fun cl hcl => ?_) fun lk hlk m hm hfixed => ?_
  · obtain ⟨c, hc, rfl⟩ := List.mem_map.1 hcl
    obtain ⟨lk, seqTraces, hlk, hseq, hclasses, -⟩ := processTrace_spec raceTrace_threads hD
    obtain rfl := Option.some.inj (hlk.symm.trans locks_race)
    obtain rfl := Option.some.inj (hseq.symm.trans (race_goodLoop between 4).1)
    obtain ⟨q, hq, hbad, hsub, hunsat⟩ := hclasses c hc
    have hq1 := race_badRounds 7 q hq
    have hclass : findOrder raceIds 2 raceTrace between true = betweenClass := by decide
    rw [hq1, hclass] at hsub
    have hapart : Apart raceIds 2 raceTrace raceLocks [] q.1 :=
      apart_of_captured raceTrace_threads hseq (badRounds_feasible q hq) (captured_race _ (by simp [hq1]))
    have hok : q.2 = true := (badRounds_iff raceTrace_threads
      (fun x hx => (keeps_of_slvBad raceTrace_threads (feasible_badModels.1 hx).1).1) (fun _ => Iff.rfl) q hq).2 hapart
    have hweak : ∀ {x : Assignment}, Allowed raceIds 2 raceTrace [] x → sequential 2 raceTrace x = true →
        (slvGoodWeak 2 raceTrace raceLocks []).Feasible [] x := fun hx hs =>
      (feasible_slvGood_iff.1 ((feasible_slvGood locks_race).2 ⟨hx, hs⟩)).1
    exact race_lock c (List.mem_sublists.2 hsub) (hunsat hok _ (hweak hfirst (by decide)))
      (hunsat hok _ (hweak hlast (by decide)))
  · obtain rfl := Option.some.inj (hlk.symm.trans locks_race)
    rw [(race_goodLoop between 4).2] at hm
    have hkeeps : KeepsThreadOrder raceTrace m := by
      rcases List.mem_pair.1 hm with rfl | rfl
      · exact hfirst.keeps raceTrace_threads
      · exact hlast.keeps raceTrace_threads
    exact hfixed.sameOrder hkeeps (hfirst.keeps raceTrace_threads) (captured_race m (List.mem_append_left [between] hm))

/-- the other write last, where its value does not fit an `int` -/
def farLast : Assignment := ofList [0, 2 ^ 31, 1, 2 ^ 31 + 1]

/-- what is read of it: the two writes of the first thread -/
def farClass : Conj ConstraintAtom := [⟨⟨firstWrite, 0⟩, ⟨secondWrite, 2⟩, false⟩]

/-- **All orderings are in the class of `farLast`**, so that no bad ordering is found. -/
theorem farLast_unsound :
    ¬∀ (z3 : Oracle Assignment) (ids : Identifiers) (threads : ℕ) (w : List Symbol) (fuel : ℕ) (L : LockSymbols)
      (D : Dnf ConstraintAtom) (p : Assignment), OfThreads threads w → processTrace z3 ids threads w fuel L = some D →
      Allowed ids threads w L p → (∀ cl ∈ negDnf D, ∃ lock ∈ inferLocks cl, lock.Exclusive p) →
      ∃ g, Allowed ids threads w L g ∧ sequential threads w g = true ∧ SameOrder w g p := by
  intro hall
  set z3 : Oracle Assignment := .preferring [farLast]
  have hfar : Allowed raceIds 2 raceTrace [] farLast := allowed_race (by decide) (by decide)
  have hbetween : Allowed raceIds 2 raceTrace [] between := allowed_race (by decide) (by decide)
  have hclass : findOrder raceIds 2 raceTrace farLast false = farClass := by decide
  have hin : ∀ {x : Assignment}, Allowed raceIds 2 raceTrace [] x → makeConj farClass x = true := by
    intro x hx
    simpa [makeConj_iff, farClass] using (race_order hx).1
  have h1 : z3.check (slvGood raceIds 2 raceTrace raceLocks []) [] = some farLast :=
    Oracle.check_preferring ((feasible_slvGood locks_race).2 ⟨hfar, by decide⟩)
  have h2 : z3.check ((slvGood raceIds 2 raceTrace raceLocks []).add fun a => !makeConj farClass a) [] = none := by
    refine Oracle.check_eq_none _ fun x hx => ?_
    obtain ⟨hx, hnot⟩ := Solver.feasible_add.1 hx
    simp [hin ((feasible_slvGood locks_race).1 hx).1] at hnot
  have h3 : z3.check ((slvBad raceIds 2 raceTrace raceLocks []).add fun a => !makeDnf [farClass] a) [] = none := by
    refine Oracle.check_eq_none _ fun x hx => ?_
    obtain ⟨hx, hnot⟩ := Solver.feasible_add.1 hx
    simp [makeDnf, hin ((feasible_slvBad locks_race).1 hx)] at hnot
  have hgood : goodLoop z3 raceIds 2 raceTrace 7 (slvGood raceIds 2 raceTrace raceLocks []) [] = some [farClass] := by
    simp [goodLoop, h1, h2, hclass]
  have hD : processTrace z3 raceIds 2 raceTrace 7 [] = some [] := by
    simp only [processTrace, locks_race, hgood, badLoop, h3, Option.bind_eq_bind, Option.bind_some]
    exact congrArg some (List.sublist_nil.1 minUnsat_sublist)
  obtain ⟨g, hg, hs, hsame⟩ := hall z3 raceIds 2 raceTrace 7 [] [] between raceTrace_threads hD hbetween (by simp [negDnf])
  -- the other write would have to be between two consecutive positions
  have h01 := (hsame ⟨firstWrite, 0⟩ (by decide) ⟨otherWrite, 1⟩ (by decide)
    ⟨⟨rfl, Or.inl ⟨rfl, Or.inr rfl⟩⟩, by decide⟩).2 (by decide)
  have h12 := (hsame ⟨otherWrite, 1⟩ (by decide) ⟨secondWrite, 2⟩ (by decide)
    ⟨⟨rfl, Or.inl ⟨rfl, Or.inr rfl⟩⟩, by decide⟩).2 (by decide)
  have hstep := race_step hs
  simp only at h01 h12
  omega

end Liss.Synthesis
