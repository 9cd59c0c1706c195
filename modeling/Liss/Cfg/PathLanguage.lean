/-
The words of a thread automaton and the paths of its CFG.

A path emits the actions of the states that it visits, and at state 1 and wherever there are several successors the tag
of the edge that it takes. The automaton takes the first edge with the tag that it reads. `tag_edge` cuts edge numbers
to 8 bits, so that from the 257th edge of a state on an edge keeps a tag that an earlier one may have as well; then the
paths over the later edge are lost.

- `acceptsFrom_sound`: every accepted word is that of a path;
- `acceptsFrom_complete`, `branchesDecide_of_complete`: the words of all paths are accepted exactly if equal tags make
  no difference;
- `accepts_iff_pathWord`: the two languages;
- `branchesDecide_of_le`: up to 256 successors no two tags of a state are equal.
-/
import Liss.Cfg.EdgeNumbers
import Liss.Cfg.Positions
import Liss.Lib.Automaton

namespace Liss

namespace AbstractCfg

variable {c m : AbstractCfg}

/-- `cfg::automaton` -/
def threadAutomaton (c : AbstractCfg) : Automaton ℤ Symbol where
  initial := c.intInitialStates.map RewardState.state
  next := c.intNextSymbols
  succ p sigma := (c.intSuccessors p sigma).map RewardState.state
  final := c.intIsFinalState

/-- what a path emits on an edge of `u`: the tag, if there is a choice at `u`, and the action of the target -/
def edgeLabel (c : AbstractCfg) (u : ℕ) (e : Edge) : List Symbol :=
  (if u = 1 ∨ 2 ≤ (c.getSuccessors u).length then e.tag.toList else []) ++ (c.getState e.dst).action.toList

/-- the labels of a path from `u` to `v`, after the action of `u` -/
inductive PathLabels (c : AbstractCfg) : ℕ → List Symbol → ℕ → Prop
  | nil (u : ℕ) : PathLabels c u [] u
  | cons {u v : ℕ} {e : Edge} {w : List Symbol} (he : e ∈ c.getSuccessors u) (hp : PathLabels c e.dst w v) :
      PathLabels c u (c.edgeLabel u e ++ w) v

/-- the words of the paths from `u` to a final state, after the action of `u` -/
def EndWord (c : AbstractCfg) (u : ℕ) (w : List Symbol) : Prop :=
  ∃ v, c.PathLabels u w v ∧ (c.getState v).final = true

/-- the words of the paths from state 1 to a final state -/
def PathWord (c : AbstractCfg) (w : List Symbol) : Prop :=
  ∃ w', c.EndWord 1 w' ∧ w = (c.getState 1).action.toList ++ w'

/-- a final state can be reached -/
def Ends (c : AbstractCfg) (u : ℕ) : Prop := ∃ v, Relation.ReflTransGen c.HasEdge u v ∧ (c.getState v).final = true

/-- of the edges with one tag the first leads where the others do, or else each of the others ends the thread at once,
as the first does, or never -/
def BranchesDecide (c : AbstractCfg) : Prop :=
  ∀ u ∈ c.Reached, ∀ e ∈ c.getSuccessors u, ∀ t, e.tag = some t → c.Ends e.dst → ∀ f, c.branch u t = some f →
    f.dst = e.dst ∨ (c.getState f.dst).final = true ∧ (c.getState e.dst).final = true

/-! ## Steps on offered symbols -/

theorem threadAutomaton_deterministic (c : AbstractCfg) (p : ℤ) (sigma : Symbol) :
    (c.threadAutomaton.succ p sigma).length ≤ 1 := by
  rw [threadAutomaton, List.length_map]
  exact c.intSuccessors_length_le p sigma

theorem step_before {u : ℕ} {sigma : Symbol} {q : ℤ} :
    c.threadAutomaton.Step ⟨u, sigma, q⟩ ↔ (c.getState u).action = some sigma ∧ q = c.afterAction u := by
  unfold Automaton.Step threadAutomaton
  simp only [intNextSymbols_before, intSuccessors_before, Option.mem_toList]
  constructor
  · intro ⟨hact, hq⟩
    simp [hact] at hq
    exact ⟨hact, hq⟩
  · intro ⟨hact, hq⟩
    simp [hact, hq]

theorem step_after (hm : m.Framed) {u : ℕ} (hu : u ≠ noState) (honce : ((m.getSuccessors u).map Edge.dst).Nodup)
    {sigma : Symbol} {q : ℤ} : m.threadAutomaton.Step ⟨-u, sigma, q⟩ ↔
      (∃ e, m.branch u sigma = some e ∧ e.tag = some sigma ∧ q = e.dst) ∨
        ∃ e ∈ m.getSuccessors u, e.tag = none ∧ (m.getState e.dst).action = some sigma ∧ q = m.afterAction e.dst := by
  unfold Automaton.Step threadAutomaton
  simp only [intNextSymbols_after m hu, List.mem_filterMap]
  constructor
  · intro ⟨⟨e, he, hsym⟩, hq⟩
    unfold edgeSymbol at hsym
    cases ht : e.tag with
    | some t =>
      left
      obtain rfl : t = sigma := by simpa [ht] using hsym
      rw [intSuccessors_tag hm hu (hm.operation_tag hu he ht)] at hq
      obtain ⟨r, hr, rfl⟩ := List.mem_map.1 hq
      obtain ⟨f, hf, rfl⟩ := List.mem_map.1 hr
      have hb : m.branch u t = some f := by simpa using hf
      obtain ⟨hf, hsame⟩ := branch_some hb
      obtain ⟨t', ht', heq⟩ := sameSymbol_iff.1 hsame
      exact ⟨f, hb, hm.tag_inj hu hu hf he ht' ht heq ▸ ht', rfl⟩
    | none =>
      right
      have ha : (m.getState e.dst).action = some sigma := by simpa [ht] using hsym
      rw [intSuccessors_action hm hu honce he ha] at hq
      exact ⟨e, he, ht, ha, by simpa using hq⟩
  · intro h
    rcases h with ⟨e, hb, ht, hq⟩ | ⟨e, he, ht, ha, hq⟩
    · have he := (branch_some hb).1
      refine ⟨⟨e, he, by simp [edgeSymbol, ht]⟩, ?_⟩
      rw [intSuccessors_tag hm hu (hm.operation_tag hu he ht), hb, hq]
      simp
    · refine ⟨⟨e, he, by simp [edgeSymbol, ht, ha]⟩, ?_⟩
      rw [intSuccessors_action hm hu honce he ha, hq]
      simp

/-! ## Places of a path -/

theorem edgeLabel_of_single {u : ℕ} (hu : u ≠ 1) {e : Edge} (he : c.getSuccessors u = [e]) :
    c.edgeLabel u e = (c.getState e.dst).action.toList := by
  simp [edgeLabel, hu, he]

theorem edgeLabel_of_choice {u : ℕ} (hu : u = 1 ∨ (c.getSuccessors u).length ≠ 1) {e : Edge}
    (he : e ∈ c.getSuccessors u) : c.edgeLabel u e = e.tag.toList ++ (c.getState e.dst).action.toList := by
  have hpos := List.length_pos_of_mem he
  rw [edgeLabel, if_pos (by omega)]

theorem endWord_nil {u : ℕ} (hf : (c.getState u).final = true) : c.EndWord u [] := ⟨u, .nil u, hf⟩

theorem EndWord.cons {u : ℕ} {e : Edge} {w : List Symbol} (he : e ∈ c.getSuccessors u) (h : c.EndWord e.dst w) :
    c.EndWord u (c.edgeLabel u e ++ w) := by
  obtain ⟨v, hp, hf⟩ := h
  exact ⟨v, .cons he hp, hf⟩

theorem EndWord.ends {u : ℕ} {w : List Symbol} (h : c.EndWord u w) : c.Ends u := by
  obtain ⟨v, hp, hf⟩ := h
  refine ⟨v, ?_, hf⟩
  induction hp with
  | nil => exact .refl
  | @cons u v e w he _ ih => exact Relation.ReflTransGen.head ⟨e, he, rfl⟩ (ih hf)

theorem Ends.endWord {u : ℕ} (h : c.Ends u) : ∃ w, c.EndWord u w := by
  obtain ⟨v, hp, hf⟩ := h
  induction hp using Relation.ReflTransGen.head_induction_on with
  | refl => exact ⟨[], endWord_nil hf⟩
  | head he _ ih =>
    obtain ⟨e, he, rfl⟩ := he
    obtain ⟨w, hw⟩ := ih
    exact ⟨_, hw.cons he⟩

/-! ## Accepted words are words of paths -/

/-- what is accepted at a position is what a path emits from there -/
theorem acceptsFrom_sound (hm : m.Framed) {fuel : ℕ} (h : c.minimise false fuel = some m) (w : List Symbol) :
    ∀ u ∈ m.Reached,
      (u ≠ 1 → m.threadAutomaton.AcceptsFrom u w →
        ∃ w', m.EndWord u w' ∧ w = (m.getState u).action.toList ++ w') ∧
      (u = 1 ∨ (m.getSuccessors u).length ≠ 1 → m.threadAutomaton.AcceptsFrom (-u) w → m.EndWord u w) := by
  induction w with
  | nil =>
    intro u hu
    have hu0 := hm.reached hu
    refine ⟨fun _ hacc => ?_, fun hchoice hacc => ?_⟩
    · have hf : (m.getState u).final = true := by
        rw [Automaton.acceptsFrom_nil] at hacc
        exact (intIsFinalState_before m u).symm.trans hacc
      exact ⟨[], endWord_nil hf, by simp [(hm.exit u hu0 hf).1]⟩
    · rw [Automaton.acceptsFrom_nil] at hacc
      obtain ⟨e, he, ht, hf⟩ := (intIsFinalState_after m hu0).1 hacc
      have hlabel : m.edgeLabel u e = [] := by
        rw [edgeLabel_of_choice hchoice he, ht, (hm.exit _ (hm.target u hu0 e he) hf).1]
        rfl
      have := (endWord_nil hf).cons he
      rwa [hlabel] at this
  | cons sigma w ih =>
    -- after the action of `v`
    have hafter : ∀ v ∈ m.Reached, v ≠ 1 → m.threadAutomaton.AcceptsFrom (m.afterAction v) w → m.EndWord v w := by
      intro v hv hv1 hacc
      rcases m.afterAction_cases v with ⟨e, he, hpos⟩ | ⟨hlen, hpos⟩
      · have hmem : e ∈ m.getSuccessors v := he ▸ List.mem_singleton_self e
        rw [hpos] at hacc
        obtain ⟨w', hw', heq⟩ := (ih e.dst (Reached.edge hv hmem)).1 (hm.target_ne_one h hv hmem) hacc
        rw [heq, ← edgeLabel_of_single hv1 he]
        exact hw'.cons hmem
      · rw [hpos] at hacc
        exact (ih v hv).2 (Or.inr hlen) hacc
    intro u hu
    have hu0 := hm.reached hu
    refine ⟨fun hu1 hacc => ?_, fun hchoice hacc => ?_⟩
    · obtain ⟨q, hstep, hacc⟩ := Automaton.acceptsFrom_cons.1 hacc
      obtain ⟨ha, rfl⟩ := step_before.1 hstep
      exact ⟨w, hafter u hu hu1 hacc, by simp [ha]⟩
    · obtain ⟨q, hstep, hacc⟩ := Automaton.acceptsFrom_cons.1 hacc
      have hone : ∀ e ∈ m.getSuccessors u, e.dst ≠ 1 := fun e he => hm.target_ne_one h hu he
      rcases (step_after hm hu0 (minimise_targets h hu).1).1 hstep with ⟨e, hb, ht, rfl⟩ | ⟨e, he, ht, ha, rfl⟩
      · have he := (branch_some hb).1
        obtain ⟨w', hw', heq⟩ := (ih e.dst (Reached.edge hu he)).1 (hone e he) hacc
        have := hw'.cons he
        rwa [edgeLabel_of_choice hchoice he, ht, List.append_assoc, ← heq] at this
      · have := (hafter e.dst (Reached.edge hu he) (hone e he) hacc).cons he
        rwa [edgeLabel_of_choice hchoice he, ht, ha] at this

/-! ## The words of paths are accepted -/

/-- a tag is answered by an edge that carries it -/
theorem Framed.branch_of_tag (hm : m.Framed) {u : ℕ} (hu : u ≠ noState) {e : Edge} (he : e ∈ m.getSuccessors u)
    {t : Symbol} (ht : e.tag = some t) : ∃ f, m.branch u t = some f ∧ f ∈ m.getSuccessors u ∧ f.tag = some t := by
  cases hb : m.branch u t with
  | none =>
    have := List.find?_eq_none.1 hb e he
    simp [ht] at this
  | some f =>
    obtain ⟨hf, hsame⟩ := branch_some hb
    obtain ⟨t', ht', heq⟩ := sameSymbol_iff.1 hsame
    exact ⟨f, rfl, hf, hm.tag_inj hu hu hf he ht' ht heq ▸ ht'⟩

/-- the word `w` of a path from `u` on is accepted after `u`, unless the thread has ended -/
def AcceptsAfter (c : AbstractCfg) (u : ℕ) (w : List Symbol) : Prop :=
  ((c.getState u).final = true → w = []) ∧
    ((c.getState u).final = false → c.threadAutomaton.AcceptsFrom (c.after u) w)

theorem AcceptsAfter.before (hm : m.Framed) {u : ℕ} (hu : u ∈ m.Reached) (hu1 : u ≠ 1)
    (hkept : (m.getState u).action = none → (m.getState u).final = true) {w : List Symbol} (h : m.AcceptsAfter u w) :
    m.threadAutomaton.AcceptsFrom u ((m.getState u).action.toList ++ w) := by
  cases ha : (m.getState u).action with
  | none =>
    have hf := hkept ha
    rw [h.1 hf]
    exact Automaton.acceptsFrom_nil.2 ((intIsFinalState_before m u).trans hf)
  | some a =>
    have hf : (m.getState u).final = false := by
      by_contra hf
      have := (hm.exit u (hm.reached hu) (by simpa using hf)).1
      simp [ha] at this
    have hacc := h.2 hf
    rw [after, if_neg hu1] at hacc
    exact Automaton.acceptsFrom_cons.2 ⟨_, step_before.2 ⟨ha, rfl⟩, hacc⟩

theorem acceptsFrom_complete (hm : m.Framed) {fuel : ℕ} (h : c.minimise false fuel = some m) (hb : m.BranchesDecide)
    {u v : ℕ} {w : List Symbol} (hp : m.PathLabels u w v) (hf : (m.getState v).final = true) (hu : u ∈ m.Reached) :
    m.AcceptsAfter u w := by
  induction hp with
  | nil u => exact ⟨fun _ => rfl, fun hn => absurd hf (by simp [hn])⟩
  | @cons u v e w he hp ih =>
    have hu0 := hm.reached hu
    have hd := Reached.edge hu he
    have hd1 := hm.target_ne_one h hu he
    have hnext := ih hf hd
    have hkept := (minimise_targets h hu).2 e he
    have hbefore := hnext.before hm hd hd1 hkept
    refine ⟨fun hfin => absurd hfin (by simp [hm.not_final hu he]), fun _ => ?_⟩
    by_cases hchoice : u = 1 ∨ (m.getSuccessors u).length ≠ 1
    · rw [after_of_choice hchoice, edgeLabel_of_choice hchoice he]
      cases ht : e.tag with
      | some t =>
        obtain ⟨f, hbranch, -, hft⟩ := hm.branch_of_tag hu0 he ht
        refine Automaton.acceptsFrom_cons.2 ⟨f.dst, ?_, ?_⟩
        · exact (step_after hm hu0 (minimise_targets h hu).1).2 (Or.inl ⟨f, hbranch, hft, rfl⟩)
        · rcases hb u hu e he t ht (EndWord.ends ⟨v, hp, hf⟩) f hbranch with hdst | ⟨hff, hef⟩
          · rw [hdst]
            exact hbefore
          · have hnil : (m.getState e.dst).action.toList ++ w = [] := by
              simp [(hm.exit _ (hm.target u hu0 e he) hef).1, hnext.1 hef]
            change m.threadAutomaton.AcceptsFrom f.dst ((m.getState e.dst).action.toList ++ w)
            rw [hnil]
            exact Automaton.acceptsFrom_nil.2 ((intIsFinalState_before m f.dst).trans hff)
      | none =>
        cases ha : (m.getState e.dst).action with
        | none =>
          have hef := hkept ha
          rw [hnext.1 hef]
          exact Automaton.acceptsFrom_nil.2 ((intIsFinalState_after m hu0).2 ⟨e, he, ht, hef⟩)
        | some a =>
          rw [ha] at hbefore
          obtain ⟨q, hstep, hacc⟩ := Automaton.acceptsFrom_cons.1 hbefore
          obtain ⟨-, rfl⟩ := step_before.1 hstep
          refine Automaton.acceptsFrom_cons.2 ⟨_, ?_, hacc⟩
          exact (step_after hm hu0 (minimise_targets h hu).1).2 (Or.inr ⟨e, he, ht, ha, rfl⟩)
    · obtain ⟨hu1, hlen⟩ := not_or.1 hchoice
      obtain ⟨e', he'⟩ := List.length_eq_one_iff.1 (not_not.1 hlen)
      obtain rfl : e = e' := by simpa [he'] using he
      rw [edgeLabel_of_single hu1 he', after, if_neg hu1]
      rcases m.afterAction_cases u with ⟨f, hsucc, hpos⟩ | ⟨hne, -⟩
      · obtain rfl : e = f := by simpa [hsucc] using he
        rw [hpos]
        exact hbefore
      · exact absurd (not_not.1 hlen) hne

/-! ## Paths that are lost -/

/-- an edge that the automaton takes -/
def Taken (c : AbstractCfg) (u v : ℕ) : Prop :=
  ∃ e ∈ c.getSuccessors u, e.dst = v ∧ ∀ t, e.tag = some t → c.branch u t = some e

theorem PathLabels.trans {u v x : ℕ} {w w' : List Symbol} (h : c.PathLabels u w v) (h' : c.PathLabels v w' x) :
    c.PathLabels u (w ++ w') x := by
  induction h with
  | nil => exact h'
  | cons he _ ih =>
    rw [List.append_assoc]
    exact .cons he (ih h')

theorem PathLabels.snoc {u v : ℕ} {w : List Symbol} (h : c.PathLabels u w v) {e : Edge} (he : e ∈ c.getSuccessors v) :
    c.PathLabels u (w ++ c.edgeLabel v e) e.dst := by
  have := h.trans (.cons he (.nil e.dst))
  rwa [List.append_nil] at this

/-- a path over such edges is a run with the same word -/
theorem exists_run_of_taken (hm : m.Framed) {fuel : ℕ} (h : c.minimise false fuel = some m) {u : ℕ}
    (hu : Relation.ReflTransGen m.Taken 1 u) (hf : (m.getState u).final = false) :
    ∃ r, m.threadAutomaton.Path (-1) r (m.after u) ∧ m.PathLabels 1 (Automaton.word r) u := by
  induction hu with
  | refl => exact ⟨[], .nil _, .nil 1⟩
  | @tail u v hu huv ih =>
    obtain ⟨e, he, rfl, hfirst⟩ := huv
    have hreach : u ∈ m.Reached := Relation.ReflTransGen.mono (fun _ _ ⟨e, he, hd, _⟩ => ⟨e, he, hd⟩) _ _ hu
    have hu0 := hm.reached hreach
    have hd1 := hm.target_ne_one h hreach he
    obtain ⟨a, ha⟩ : ∃ a, (m.getState e.dst).action = some a := by
      rw [← Option.isSome_iff_exists, ← Option.ne_none_iff_isSome]
      intro hnone
      simp [(minimise_targets h hreach).2 e he hnone] at hf
    obtain ⟨r, hp, hl⟩ := ih (hm.not_final hreach he)
    have hafter : m.after e.dst = m.afterAction e.dst := by rw [after, if_neg hd1]
    have hact : m.threadAutomaton.Step ⟨e.dst, a, m.after e.dst⟩ := step_before.2 ⟨ha, hafter⟩
    have hsnoc := hl.snoc he
    by_cases hchoice : u = 1 ∨ (m.getSuccessors u).length ≠ 1
    · rw [after_of_choice hchoice] at hp
      rw [edgeLabel_of_choice hchoice he, ha] at hsnoc
      cases ht : e.tag with
      | some t =>
        have hstep : m.threadAutomaton.Step ⟨-u, t, e.dst⟩ :=
          (step_after hm hu0 (minimise_targets h hreach).1).2 (Or.inl ⟨e, hfirst t ht, ht, rfl⟩)
        refine ⟨r ++ [⟨-u, t, e.dst⟩, ⟨e.dst, a, m.after e.dst⟩], ?_, ?_⟩
        · exact hp.append (.cons hstep (.cons hact (.nil _)))
        · rw [ht] at hsnoc
          exact (Automaton.word_append r _).symm ▸ hsnoc
      | none =>
        have hstep : m.threadAutomaton.Step ⟨-u, a, m.after e.dst⟩ :=
          (step_after hm hu0 (minimise_targets h hreach).1).2 (Or.inr ⟨e, he, ht, ha, hafter⟩)
        refine ⟨r ++ [⟨-u, a, m.after e.dst⟩], hp.append (.single hstep), ?_⟩
        rw [ht] at hsnoc
        exact (Automaton.word_append r _).symm ▸ hsnoc
    · obtain ⟨hu1, hlen⟩ := not_or.1 hchoice
      obtain ⟨e', he'⟩ := List.length_eq_one_iff.1 (not_not.1 hlen)
      obtain rfl : e = e' := by simpa [he'] using he
      rw [edgeLabel_of_single hu1 he', ha] at hsnoc
      rcases m.afterAction_cases u with ⟨f, hsucc, hpos⟩ | ⟨hne, -⟩
      · obtain rfl : e = f := by simpa [hsucc] using he
        rw [after, if_neg hu1, hpos] at hp
        refine ⟨r ++ [⟨e.dst, a, m.after e.dst⟩], hp.append (.single hact), ?_⟩
        exact (Automaton.word_append r _).symm ▸ hsnoc
      · exact absurd (not_not.1 hlen) hne

/-- a state without successors ends no path but the empty one -/
theorem PathLabels.eq_nil {u v : ℕ} {w : List Symbol} (h : c.PathLabels u w v) (hu : c.getSuccessors u = []) :
    w = [] := by
  cases h with
  | nil => rfl
  | cons he => simp [hu] at he

theorem accepts_iff_acceptsFrom {w : List Symbol} :
    c.threadAutomaton.Accepts w ↔ c.threadAutomaton.AcceptsFrom (-1) w := by
  rw [Automaton.accepts_iff]
  simp [threadAutomaton, intInitialStates]

theorem Framed.pathWord_iff (hm : m.Framed) {w : List Symbol} : m.PathWord w ↔ m.EndWord 1 w := by
  simp [PathWord, hm.start.1]

/-- the edges of a state on such a path -/
theorem branch_of_complete (hm : m.Framed) {fuel : ℕ} (h : c.minimise false fuel = some m)
    (hall : ∀ w, m.PathWord w → m.threadAutomaton.Accepts w) {u : ℕ} (hu : Relation.ReflTransGen m.Taken 1 u) {e f : Edge}
    (he : e ∈ m.getSuccessors u) {t : Symbol} (ht : e.tag = some t) (hends : m.Ends e.dst)
    (hf : m.branch u t = some f) :
    f.dst = e.dst ∨ (m.getState f.dst).final = true ∧ (m.getState e.dst).final = true := by
  have hreach : u ∈ m.Reached := Relation.ReflTransGen.mono (fun _ _ ⟨e, he, hd, _⟩ => ⟨e, he, hd⟩) _ _ hu
  have hu0 := hm.reached hreach
  have hmem := (branch_some hf).1
  by_cases hdst : f.dst = e.dst
  · exact Or.inl hdst
  obtain ⟨r, hp, hl⟩ := exists_run_of_taken hm h hu (hm.not_final hreach he)
  have hchoice : u = 1 ∨ (m.getSuccessors u).length ≠ 1 := by
    right
    intro hlen
    obtain ⟨x, hx⟩ := List.length_eq_one_iff.1 hlen
    rw [hx, List.mem_singleton] at he hmem
    exact hdst (by rw [hmem, he])
  rw [after_of_choice hchoice] at hp
  obtain ⟨w, v, hlw, hfv⟩ := hends.endWord
  have hword : m.PathWord (Automaton.word r ++ (m.edgeLabel u e ++ w)) :=
    hm.pathWord_iff.2 ⟨v, hl.trans (.cons he hlw), hfv⟩
  have hacc := Automaton.acceptsFrom_of_path m.threadAutomaton_deterministic hp
    (accepts_iff_acceptsFrom.1 (hall _ hword))
  rw [edgeLabel_of_choice hchoice he, ht] at hacc
  obtain ⟨q, hstep, hacc⟩ := Automaton.acceptsFrom_cons.1 hacc
  rcases (step_after hm hu0 (minimise_targets h hreach).1).1 hstep with ⟨f', hf', -, rfl⟩ | ⟨e', he', -, ha, -⟩
  · obtain rfl : f = f' := Option.some.inj (hf.symm.trans hf')
    cases hef : (m.getState e.dst).final with
    | true =>
      obtain ⟨hact, hsucc⟩ := hm.exit _ (hm.target u hu0 e he) hef
      rw [hact, hlw.eq_nil hsucc] at hacc
      exact Or.inr ⟨(intIsFinalState_before m f.dst).symm.trans (Automaton.acceptsFrom_nil.1 hacc), rfl⟩
    | false =>
      obtain ⟨a, ha⟩ : ∃ a, (m.getState e.dst).action = some a := by
        rw [← Option.isSome_iff_exists, ← Option.ne_none_iff_isSome]
        intro hnone
        simp [(minimise_targets h hreach).2 e he hnone] at hef
      rw [ha] at hacc
      obtain ⟨q, hstep, -⟩ := Automaton.acceptsFrom_cons.1 hacc
      have hfa := (step_before.1 hstep).1
      exact Or.inl (hm.action_inj (hm.target u hu0 f hmem) (hm.target u hu0 e he) hfa ha (Symbol.equals_refl a))
  · exact absurd (hm.operation_tag hu0 he ht) (hm.own _ (hm.target u hu0 e' he') t ha).2

theorem branchesDecide_of_complete (hm : m.Framed) {fuel : ℕ} (h : c.minimise false fuel = some m)
    (hall : ∀ w, m.PathWord w → m.threadAutomaton.Accepts w) : m.BranchesDecide := by
  -- a state from which an end is reached over an edge is reached over edges that are taken
  have htaken : ∀ u ∈ m.Reached, (∃ e ∈ m.getSuccessors u, m.Ends e.dst) → Relation.ReflTransGen m.Taken 1 u := by
    intro u hu
    induction hu with
    | refl => exact fun _ => .refl
    | @tail u v hu huv ih =>
      intro ⟨e', he', hends'⟩
      obtain ⟨e, he, rfl⟩ := huv
      have hends : m.Ends e.dst := by
        obtain ⟨x, hx, hf⟩ := hends'
        exact ⟨x, Relation.ReflTransGen.head ⟨e', he', rfl⟩ hx, hf⟩
      have hu' := ih ⟨e, he, hends⟩
      refine hu'.tail ⟨e, he, rfl, fun t ht => ?_⟩
      obtain ⟨f, hf, hmem, -⟩ := hm.branch_of_tag (hm.reached hu) he ht
      rcases branch_of_complete hm h hall hu' he ht hends hf with hdst | ⟨-, hfin⟩
      · rw [hf, List.inj_on_of_nodup_map (minimise_targets h hu).1 hmem he hdst]
      · simp [hm.not_final (Reached.edge hu he) he'] at hfin
  intro u hu e he t ht hends f hf
  exact branch_of_complete hm h hall (htaken u hu ⟨e, he, hends⟩) he ht hends hf

/-! ## Both languages -/

/-- up to 256 successors a tag belongs to one edge -/
theorem branchesDecide_of_le (hm : m.Framed) {fuel : ℕ} (h : c.minimise false fuel = some m)
    (hlen : ∀ u ∈ m.Reached, (m.getSuccessors u).length ≤ 256) : m.BranchesDecide := by
  intro u hu e he t ht _ f hf
  obtain ⟨f', hf', hmem, hft⟩ := hm.branch_of_tag (hm.reached hu) he ht
  obtain rfl : f = f' := Option.some.inj (hf.symm.trans hf')
  exact Or.inl (congrArg Edge.dst (tag_unique h hu (hlen u hu) hmem he hft ht))

/-- **Words and paths.** -/
theorem accepts_iff_pathWord (hc : c.Prepared) {fuel : ℕ} (h : c.minimise false fuel = some m) :
    (∀ w, m.threadAutomaton.Accepts w ↔ m.PathWord w) ↔ m.BranchesDecide := by
  have hm := hc.framed.minimise h
  constructor
  · intro hall
    exact branchesDecide_of_complete hm h fun w => (hall w).2
  · intro hb w
    rw [accepts_iff_acceptsFrom, hm.pathWord_iff]
    constructor
    · exact (acceptsFrom_sound hm h w 1 .refl).2 (Or.inl rfl)
    · intro ⟨v, hp, hf⟩
      exact (acceptsFrom_complete hm h hb hp hf .refl).2 hm.start.2

/-- a branch into three states -/
theorem threeBranch_accepts : threeBranch.BranchesDecide ∧
    ∀ w, threeBranch.threadAutomaton.Accepts w ↔ threeBranch.PathWord w := by
  have hc : (wideBranch 1).Prepared := .parsed (wideBranch_parsed (by decide))
  have hmin := (Option.some_get threeBranch_minimise).symm
  have hdecide : threeBranch.BranchesDecide := by
    apply branchesDecide_of_le (hc.framed.minimise hmin) hmin
    intro u hu
    have hmem := reached_subset (l := [1, 3, 4, 5, 6]) (by decide) (by decide) u hu
    have hall : ∀ u ∈ [1, 3, 4, 5, 6], (threeBranch.getSuccessors u).length ≤ 256 := by decide
    exact hall u hmem
  exact ⟨hdecide, (accepts_iff_pathWord hc hmin).2 hdecide⟩

/-- a branch into 257 states: the last one is never entered -/
theorem wideBranch_lost : ¬ ∀ (c m : AbstractCfg) (fuel : ℕ), c.Prepared → c.minimise false fuel = some m →
    ∀ w, m.threadAutomaton.Accepts w ↔ m.PathWord w := by
  intro hall
  have hparsed := wideBranch_parsed (Nat.le_refl 255)
  obtain ⟨N, hN⟩ := minimise_total (wideBranch_fresh 255) false
  obtain ⟨m, h⟩ := hN N (Nat.le_refl N)
  have hm := hparsed.framed.minimise h
  have hb := branchesDecide_of_complete hm h fun w => (hall _ m N (.parsed hparsed) h w).2
  obtain ⟨f, l, e, hsucc, he, hfd, hed, hft, het⟩ := wideBranch_tags h
  have he1 : e ∈ m.getSuccessors 1 := hsucc ▸ List.mem_cons_of_mem f he
  have hbranch : m.branch 1 (Symbol.ofBranch 0 1 0) = some f := by
    rw [branch, hsucc, List.find?_cons, hft, sameSymbol_self]
  have hfinal : (m.getState 3).final = true := by
    rw [(minimise_fields h 3).2, getState_wideBranch, getState_choiceStates]
    rfl
  have hends : m.Ends e.dst := by
    refine ⟨3, .single ?_, hfinal⟩
    rw [hasEdge_minimise hparsed.constructed h (Reached.edge .refl he1), hed]
    refine ⟨?_, [], ?_⟩
    · rw [kept, getState_wideBranch, getState_choiceStates]
      rfl
    · exact link_nil.2 (hasEdge_wideBranch (by decide) (by decide))
  rcases hb 1 .refl e he1 _ het hends f hbranch with hdst | ⟨hff, -⟩
  · rw [hfd, hed] at hdst
    exact absurd hdst (by decide)
  · rw [hfd, (minimise_fields h 4).2, getState_wideBranch, getState_choiceStates] at hff
    simp [final_storeStates] at hff

end AbstractCfg

end Liss
