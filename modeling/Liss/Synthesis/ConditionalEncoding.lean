/-
The constraint `conditionals` of `prepare_trace` and the conditional variables of `apply_symbol`.

- `wait_iff`: the constraint of one wait says that the wait passes;
- `conditionals_iff`: `conditionals` says that all waits pass when the locations are executed in the order of their
  values. The order of the threads does not matter for this.
-/
import Liss.Synthesis.Replays

namespace Liss.Synthesis

open ConcurrentAutomaton

variable {ids : Identifiers} {threads : ℕ} {w : List Symbol} {g : Assignment}

/-- the variables of the trace are those of the program -/
def Known (ids : Identifiers) (w : List Symbol) : Prop := ∀ s ∈ w, s.known ids = true

theorem mem_waits_iff (hw : OfThreads threads w) {l : TraceLocation} {i : ℕ} :
    l ∈ waits threads w i ↔ l ∈ splitTrace w ∧ l.symbol.var = i ∧ isWait l.symbol := by
  rw [waits, mem_gather_iff hw, isWait]
  simp only [List.mem_cons, List.not_mem_nil, or_false]
  tauto

theorem mem_notifies_iff (hw : OfThreads threads w) {l : TraceLocation} {i : ℕ} :
    l ∈ notifies threads w i ↔ l ∈ splitTrace w ∧ condBit i l.symbol = some true := by
  rw [notifies, mem_gather_iff hw, condBit_notify]
  simp [and_comm]

theorem mem_resets_iff (hw : OfThreads threads w) {l : TraceLocation} {i : ℕ} :
    l ∈ resets threads w i ↔ l ∈ splitTrace w ∧ condBit i l.symbol = some false := by
  rw [resets, mem_gather_iff hw, condBit_reset]
  simp [and_comm, or_comm]

/-- a wait -/
theorem waitCondition_iff (hw : OfThreads threads w) (hg : Separates w g) {pre post : List TraceLocation}
    {l : TraceLocation} (heq : reordered w g = pre ++ l :: post) :
    waitCondition threads w l.symbol.var l g = true ↔
      replay (condBit l.symbol.var) (pre.map TraceLocation.symbol) = true := by
  have hlw : l ∈ splitTrace w := mem_reordered.1 (by rw [heq]; simp)
  rw [replay_reordered hg heq]
  simp only [waitCondition, List.any_eq_true, Bool.and_eq_true, List.all_eq_true, Bool.or_eq_true, decide_eq_true_eq,
    beq_iff_eq, mem_notifies_iff hw, mem_resets_iff hw]
  constructor
  · rintro ⟨n, ⟨hns, hnbit⟩, hnl, hall⟩
    refine ⟨n, hns, hnl, hnbit, fun y hy hny hyl hbit => ?_⟩
    rcases hall y ⟨hy, hbit⟩ with (hself | hyn) | hly
    · rw [eq_of_position hlw hy hself] at hyl
      exact lt_irrefl _ hyl
    · exact lt_irrefl _ (hny.trans hyn)
    · exact lt_irrefl _ (hyl.trans hly)
  · rintro ⟨n, hns, hnl, hnbit, hall⟩
    refine ⟨n, ⟨hns, hnbit⟩, hnl, fun y hy => ?_⟩
    by_cases hself : l.position = y.position
    · exact Or.inl (Or.inl hself)
    · -- a notify is no reset, so the two are at different values
      have hne : g y.position ≠ g n.position := by
        intro h
        rw [hg y hy.1 n hns h, hnbit] at hy
        simp at hy
      have hne' : g y.position ≠ g l.position := fun h => hself (by rw [hg y hy.1 l hlw h])
      by_contra hno
      simp only [hself, false_or, not_or, not_lt] at hno
      exact hall y hy.1 (lt_of_le_of_ne hno.1 hne.symm) (lt_of_le_of_ne hno.2 hne') hy.2

/-- a `wait_not` -/
theorem waitNotCondition_iff (hw : OfThreads threads w) (hg : Separates w g) {pre post : List TraceLocation}
    {l : TraceLocation} (heq : reordered w g = pre ++ l :: post) (hop : l.symbol.operation = .waitNot) :
    waitNotCondition threads w l.symbol.var l g = true ↔
      replay (condBit l.symbol.var) (pre.map TraceLocation.symbol) = false := by
  have hlw : l ∈ splitTrace w := mem_reordered.1 (by rw [heq]; simp)
  have hlbit : condBit l.symbol.var l.symbol = none := by simp [condBit, hop]
  have hne : ∀ n ∈ splitTrace w, condBit l.symbol.var n.symbol ≠ none → g l.position ≠ g n.position := by
    intro n hn hbit h
    rw [← hg l hlw n hn h] at hbit
    exact hbit hlbit
  rw [Bool.eq_false_iff, Ne, replay_reordered hg heq]
  simp only [waitNotCondition, Bool.or_eq_true, List.all_eq_true, List.any_eq_true, Bool.and_eq_true,
    decide_eq_true_eq, mem_notifies_iff hw, mem_resets_iff hw]
  constructor
  · rintro hcond ⟨x, hx, hxl, hxn, hbetween⟩
    rcases hcond with hbefore | ⟨r, ⟨hrs, hrbit⟩, hrl, hall⟩
    · exact lt_irrefl _ (hxl.trans (hbefore x ⟨hx, hxn⟩))
    · rcases hall x ⟨hx, hxn⟩ with hxr | hlx
      · exact hbetween r hrs hxr hrl hrbit
      · exact lt_irrefl _ (hxl.trans hlx)
  · intro hno
    by_cases hnotified : ∃ n ∈ notifies threads w l.symbol.var, g n.position < g l.position
    · -- the last notify before the wait is reset
      obtain ⟨x, ⟨hx, hxl⟩, hlast⟩ : ∃ x, (x ∈ notifies threads w l.symbol.var ∧ g x.position < g l.position) ∧
          ∀ n ∈ notifies threads w l.symbol.var, g n.position < g l.position → g n.position ≤ g x.position := by
        obtain ⟨n, hn, hnl⟩ := hnotified
        obtain ⟨x, hx, hmax⟩ := ((notifies threads w l.symbol.var).toFinset.filter
          fun n => g n.position < g l.position).exists_max_image (fun n => g n.position) ⟨n, by simp [hn, hnl]⟩
        refine ⟨x, by simpa using hx, fun n hn hnl => hmax n (by simp [hn, hnl])⟩
      obtain ⟨hxs, hxn⟩ := (mem_notifies_iff hw).1 hx
      push Not at hno
      obtain ⟨r, hrs, hxr, hrl, hrbit⟩ := hno x hxs hxl hxn
      refine Or.inr ⟨r, ⟨hrs, hrbit⟩, hrl, fun n hn => ?_⟩
      rcases lt_or_gt_of_ne (hne n hn.1 (by simp [hn.2])) with hln | hnl
      · exact Or.inr hln
      · exact Or.inl ((hlast n ((mem_notifies_iff hw).2 hn) hnl).trans_lt hxr)
    · have hnever : ∀ n ∈ notifies threads w l.symbol.var, ¬g n.position < g l.position := fun n hn hnl =>
        hnotified ⟨n, hn, hnl⟩
      exact Or.inl fun n hn => lt_of_le_of_ne (not_lt.1 (hnever n ((mem_notifies_iff hw).2 hn)))
        (hne n hn.1 (by simp [hn.2]))

/-- the constraint of a wait says that its conditional is as the wait needs it -/
theorem wait_iff (hw : OfThreads threads w) (hg : Separates w g) {pre post : List TraceLocation} {l : TraceLocation}
    (heq : reordered w g = pre ++ l :: post) :
    (if l.symbol.operation ≠ .waitNot then waitCondition threads w l.symbol.var l g
      else waitNotCondition threads w l.symbol.var l g) = true ↔
      replay (condBit l.symbol.var) (pre.map TraceLocation.symbol) = decide (l.symbol.operation ≠ .waitNot) := by
  by_cases hop : l.symbol.operation = .waitNot
  · rw [if_neg (not_not.2 hop), waitNotCondition_iff hw hg heq hop, decide_eq_false (not_not.2 hop)]
  · rw [if_pos hop, waitCondition_iff hw hg heq, decide_eq_true hop]

/-- **`conditionals`**: no wait is blocked. -/
theorem wait_free (hw : OfThreads threads w) (hg : Separates w g) (hc : conditionals ids threads w g = true)
    {pre post : List TraceLocation} {l : TraceLocation} (heq : reordered w g = pre ++ l :: post)
    (hop : isWait l.symbol) (hvar : l.symbol.var < ids.noConditionals) :
    replay (condBit l.symbol.var) (pre.map TraceLocation.symbol) = decide (l.symbol.operation ≠ .waitNot) := by
  have hlw : l ∈ splitTrace w := mem_reordered.1 (by rw [heq]; simp)
  simp only [conditionals, List.all_eq_true, List.mem_range] at hc
  exact (wait_iff hw hg heq).1 (hc _ hvar l ((mem_waits_iff hw).2 ⟨hlw, rfl, hop⟩))

/-- **The encoding of the conditional variables is exact.** -/
theorem conditionals_iff (hw : OfThreads threads w) (hk : Known ids w) (hg : Separates w g) :
    conditionals ids threads w g = true ↔ waitsPass (word w g) = true := by
  rw [waitsPass_iff]
  constructor
  · intro hc pre s post heq hop
    obtain ⟨pre', rest, hre, rfl, hrest⟩ := List.map_eq_append_iff.1 heq
    obtain ⟨l, post', rfl, rfl, rfl⟩ := List.map_eq_cons_iff.1 hrest
    have hlw : l ∈ splitTrace w := mem_reordered.1 (by rw [hre]; simp)
    have hknown := hk _ (List.mem_of_getElem? (mem_splitTrace.1 hlw))
    apply wait_free hw hg hc hre hop
    rcases hop with hop | hop | hop
    · simpa [Symbol.known, hop] using hknown
    · simpa [Symbol.known, hop] using hknown
    · simpa [Symbol.known, hop] using hknown
  · intro hpass
    simp only [conditionals, List.all_eq_true, List.mem_range]
    intro i _ l hl
    obtain ⟨hls, rfl, hop⟩ := (mem_waits_iff hw).1 hl
    obtain ⟨pre, post, hre⟩ := List.append_of_mem (mem_reordered.2 hls : l ∈ reordered w g)
    refine (wait_iff hw hg hre).2 (hpass _ l.symbol (post.map TraceLocation.symbol) ?_ hop)
    rw [word, hre, List.map_append, List.map_cons]

/-- a thread that notifies, and one that takes the notification and goes on -/
def takeNotification : List Symbol :=
  [{ operation := .notify, var := 0, loc := ⟨0, 1⟩ }, { operation := .waitReset, var := 0, loc := ⟨1, 1⟩ },
    { operation := .waitNot, var := 0, loc := ⟨1, 2⟩ }]

/-- the last location first -/
def backwards : Assignment := fun i => -i

theorem conditionals_iff_backwards :
    conditionals ⟨0, 0, 1⟩ 2 takeNotification backwards = true ↔
      waitsPass (word takeNotification backwards) = true := by
  refine conditionals_iff ?_ ?_ fun l hl l' hl' h => eq_of_position hl hl' ?_
  · unfold OfThreads
    decide
  · unfold Known
    decide
  · unfold backwards at h
    omega

example : waitsPass takeNotification = true ∧ waitsPass (word takeNotification backwards) = false := by decide

end Liss.Synthesis
