/-
`int_next_symbols` against `int_successors`.

After a state `int_next_symbols` offers the tag of an edge, and only without a tag the action of its target.
`int_successors` also answers the action of a target behind a tag, so that a branch can be taken without its tag.

- `exists_successor`: what is offered has a successor;
- `answered_iff`: what else is answered, the actions behind tags;
- `agrees_iff`: the two agree at a position exactly if no tagged edge leads on to an action and no two edges have one
  tag.
-/
import Liss.Cfg.EdgeNumbers
import Liss.Cfg.Positions

namespace Liss

namespace AbstractCfg

variable {c m : AbstractCfg}

/-- one successor under each symbol that is offered, none under the others, and no symbol is offered twice -/
def Agrees (c : AbstractCfg) (p : ℤ) : Prop :=
  (∀ sigma : Symbol, (c.intSuccessors p sigma).length = if sigma.isIn (c.intNextSymbols p) then 1 else 0) ∧
    (c.intNextSymbols p).Pairwise fun s s' => s.equals s' = false

/-- no action behind a tag, and no tag twice -/
structure Guarded (c : AbstractCfg) (u : ℕ) : Prop where
  action : ∀ e ∈ c.getSuccessors u, e.tag ≠ none → (c.getState e.dst).action = none
  once : (c.getSuccessors u).Pairwise fun e f => e.tag ≠ none → e.tag ≠ f.tag

/-! ## Before a state -/

theorem agrees_before (c : AbstractCfg) (u : ℕ) : c.Agrees u := by
  refine ⟨fun sigma => ?_, ?_⟩
  · rw [intSuccessors_before, intNextSymbols_before, Symbol.isIn, sameSymbol]
    cases (c.getState u).action with
    | none => rfl
    | some a => cases h : a.equals sigma <;> simp [h]
  · rw [intNextSymbols_before]
    cases (c.getState u).action <;> simp

/-! ## After a state -/

theorem length_intSuccessors_after (c : AbstractCfg) {u : ℕ} (hu : u ≠ noState) (sigma : Symbol) :
    (c.intSuccessors (-u) sigma).length = if ∃ e ∈ c.getSuccessors u,
      sameSymbol e.tag sigma = true ∨ sameSymbol (c.getState e.dst).action sigma = true then 1 else 0 := by
  rw [intSuccessors_after c hu]
  cases ha : c.answer u sigma with
  | none =>
    rw [if_neg]
    · rfl
    · intro ⟨e, he, hsame⟩
      have := List.find?_eq_none.1 ha e he
      simp [hsame] at this
  | some e =>
    have hsame : (sameSymbol e.tag sigma || sameSymbol (c.getState e.dst).action sigma) = true := by
      unfold answer at ha
      simpa using List.find?_some ha
    rw [if_pos ⟨e, List.mem_of_find?_eq_some ha, by simpa using hsame⟩]
    rfl

theorem isIn_intNextSymbols_after (c : AbstractCfg) {u : ℕ} (hu : u ≠ noState) (sigma : Symbol) :
    sigma.isIn (c.intNextSymbols (-u)) = true ↔ ∃ e ∈ c.getSuccessors u, sameSymbol (c.edgeSymbol e) sigma = true := by
  rw [intNextSymbols_after c hu, Symbol.isIn_iff]
  constructor
  · intro ⟨t, ht, heq⟩
    obtain ⟨e, he, hsym⟩ := List.mem_filterMap.1 ht
    exact ⟨e, he, sameSymbol_iff.2 ⟨t, hsym, heq⟩⟩
  · intro ⟨e, he, hsame⟩
    obtain ⟨t, hsym, heq⟩ := sameSymbol_iff.1 hsame
    exact ⟨t, List.mem_filterMap.2 ⟨e, he, hsym⟩, heq⟩

/-- **What is offered is answered.** -/
theorem exists_successor (hm : m.Framed) {p : ℤ} (hp : m.Position p) {sigma : Symbol}
    (hs : sigma.isIn (m.intNextSymbols p) = true) : (m.intSuccessors p sigma).length = 1 := by
  obtain ⟨u, hu, rfl | rfl⟩ := hp
  · rw [(m.agrees_before u).1, if_pos hs]
  · obtain ⟨e, he, hsame⟩ := (m.isIn_intNextSymbols_after (hm.reached hu) sigma).1 hs
    rw [length_intSuccessors_after m (hm.reached hu), if_pos]
    refine ⟨e, he, ?_⟩
    cases ht : e.tag with
    | some t =>
      rw [edgeSymbol_of_tag ht] at hsame
      exact Or.inl hsame
    | none =>
      rw [edgeSymbol_of_none ht] at hsame
      exact Or.inr hsame

/-- **What is answered without being offered:** the actions behind tags. -/
theorem answered_iff (hm : m.Framed) {u : ℕ} (hu : u ∈ m.Reached) (honce : ((m.getSuccessors u).map Edge.dst).Nodup) :
    (∀ sigma : Symbol, (m.intSuccessors (-u) sigma).length = if sigma.isIn (m.intNextSymbols (-u)) then 1 else 0) ↔
      ∀ e ∈ m.getSuccessors u, e.tag ≠ none → (m.getState e.dst).action = none := by
  have hu0 := hm.reached hu
  constructor
  · intro hall e he htag
    by_contra hact
    obtain ⟨t, ht⟩ := Option.ne_none_iff_exists'.1 htag
    obtain ⟨a, ha⟩ := Option.ne_none_iff_exists'.1 hact
    have hlen := hall a
    rw [length_intSuccessors_after m hu0, if_pos ⟨e, he, Or.inr (by simp [ha])⟩] at hlen
    have hin : a.isIn (m.intNextSymbols (-u)) = true := by
      by_contra hn
      rw [if_neg hn] at hlen
      exact absurd hlen one_ne_zero
    -- an edge that offers the action would lead to the same state without a tag
    obtain ⟨f, hf, hsame⟩ := (m.isIn_intNextSymbols_after hu0 a).1 hin
    cases hft : f.tag with
    | some t' =>
      have heq : t'.equals a = true := by simpa [edgeSymbol_of_tag hft, sameSymbol] using hsame
      rw [hm.tag_ne_action hu0 (hm.target u hu0 e he) hf hft ha] at heq
      simp at heq
    | none =>
      rw [edgeSymbol_of_none hft, sameSymbol_iff] at hsame
      obtain ⟨b, hb, hba⟩ := hsame
      have hdst := hm.action_inj (hm.target u hu0 f hf) (hm.target u hu0 e he) hb ha hba
      obtain rfl := List.inj_on_of_nodup_map honce hf he hdst
      exact htag hft
  · intro hact sigma
    rw [length_intSuccessors_after m hu0]
    refine if_congr ?_ rfl rfl
    rw [isIn_intNextSymbols_after m hu0]
    refine exists_congr fun e => and_congr_right fun he => ?_
    cases ht : e.tag with
    | some t => simp [edgeSymbol_of_tag ht, hact e he (by simp [ht])]
    | none => simp [edgeSymbol_of_none ht]

/-- two edges offer one symbol only if they carry one tag -/
theorem edgeSymbol_equals (hm : m.Framed) {u : ℕ} (hu : u ≠ noState) {e f : Edge} (he : e ∈ m.getSuccessors u)
    (hf : f ∈ m.getSuccessors u) (hdst : e.dst ≠ f.dst) :
    (∀ s, m.edgeSymbol e = some s → ∀ s', m.edgeSymbol f = some s' → s.equals s' = false) ↔
      (e.tag ≠ none → e.tag ≠ f.tag) := by
  cases het : e.tag with
  | some t =>
    rw [edgeSymbol_of_tag het]
    cases hft : f.tag with
    | some t' =>
      rw [edgeSymbol_of_tag hft]
      constructor
      · intro h _ heq
        have := h t rfl t' rfl
        rw [Option.some.inj heq, Symbol.equals_refl] at this
        simp at this
      · intro hne s hs s' hs'
        by_contra heq
        rw [← Option.some.inj hs, ← Option.some.inj hs', Bool.not_eq_false] at heq
        exact hne (by simp) (congrArg some (hm.tag_inj hu hu he hf het hft heq))
    | none =>
      rw [edgeSymbol_of_none hft]
      refine iff_of_true (fun s hs s' hs' => ?_) (by simp)
      exact Option.some.inj hs ▸ hm.tag_ne_action hu (hm.target u hu f hf) he het hs'
  | none =>
    rw [edgeSymbol_of_none het]
    refine iff_of_true (fun s ha s' hs' => ?_) (by simp)
    by_contra heq
    rw [Bool.not_eq_false] at heq
    cases hft : f.tag with
    | some t' =>
      rw [edgeSymbol_of_tag hft] at hs'
      have := hm.tag_ne_action hu (hm.target u hu e he) hf hft ha
      rw [Option.some.inj hs', Symbol.equals_symm heq] at this
      simp at this
    | none =>
      rw [edgeSymbol_of_none hft] at hs'
      exact hdst (hm.action_inj (hm.target u hu e he) (hm.target u hu f hf) ha hs' heq)

theorem offered_once_iff (hm : m.Framed) {u : ℕ} (hu : u ≠ noState) (honce : ((m.getSuccessors u).map Edge.dst).Nodup) :
    ((m.intNextSymbols (-u)).Pairwise fun s s' => s.equals s' = false) ↔
      (m.getSuccessors u).Pairwise fun e f => e.tag ≠ none → e.tag ≠ f.tag := by
  have hdst : (m.getSuccessors u).Pairwise fun e f => e.dst ≠ f.dst := List.pairwise_map.1 honce
  rw [intNextSymbols_after m hu, List.pairwise_filterMap]
  constructor
  · intro h
    refine List.Pairwise.imp_of_mem ?_ (h.and hdst)
    intro e f he hf ⟨hs, hne⟩
    exact (edgeSymbol_equals hm hu he hf hne).1 fun s hes s' hfs => hs s hes s' hfs
  · intro h
    refine List.Pairwise.imp_of_mem ?_ (h.and hdst)
    intro e f he hf ⟨ht, hne⟩
    exact fun s hes s' hfs => (edgeSymbol_equals hm hu he hf hne).2 ht s hes s' hfs

theorem agrees_after_iff (hm : m.Framed) {fuel : ℕ} (h : c.minimise false fuel = some m) {u : ℕ} (hu : u ∈ m.Reached) :
    m.Agrees (-u) ↔ m.Guarded u := by
  have honce := (minimise_targets h hu).1
  rw [Agrees, answered_iff hm hu honce, offered_once_iff hm (hm.reached hu) honce]
  constructor
  · intro ⟨h1, h2⟩
    exact ⟨h1, h2⟩
  · intro ⟨h1, h2⟩
    exact ⟨h1, h2⟩

/-- **Offered and answered.** Before a state the two agree, and after a state exactly if it is guarded. -/
theorem agrees_iff (hc : c.Prepared) {fuel : ℕ} (h : c.minimise false fuel = some m) {p : ℤ} (hp : m.ReachedPosition p) :
    m.Agrees p ↔ ∀ u : ℕ, u ≠ noState → p = -u → m.Guarded u := by
  have hm := hc.framed.minimise h
  obtain ⟨u, hu, rfl | rfl⟩ := hp.position hm
  · refine iff_of_true (m.agrees_before u) fun v hv huv => ?_
    simp only [noState] at hv
    omega
  · rw [agrees_after_iff hm h hu]
    constructor
    · intro hg v _ huv
      obtain rfl : u = v := by omega
      exact hg
    · exact fun hall => hall u (hm.reached hu) rfl

/-- after a nondeterministic choice -/
theorem twoChoice_agrees : twoChoice.Agrees (-1) := by
  refine (agrees_iff (.parsed (wideBranch_parsed (by decide))) (Option.some_get twoChoice_minimise).symm .refl).2 ?_
  intro u _ hu
  obtain rfl : u = 1 := by omega
  have haction : ∀ e ∈ twoChoice.getSuccessors 1, e.tag ≠ none → (twoChoice.getState e.dst).action = none := by decide
  have honce : (twoChoice.getSuccessors 1).Pairwise fun e f => e.tag ≠ none → e.tag ≠ f.tag := by decide
  exact ⟨haction, honce⟩

/-- the action behind the first tag is not offered, but answered -/
theorem threeBranch_disagrees : ¬ ∀ (c m : AbstractCfg) (fuel : ℕ) (p : ℤ), c.Prepared →
    c.minimise false fuel = some m → m.ReachedPosition p → m.Agrees p := by
  intro hall
  have hlen := (hall (wideBranch 1) threeBranch 40 (-1) (.parsed (wideBranch_parsed (by decide)))
    (Option.some_get threeBranch_minimise).symm .refl).1 { storeX with loc := ⟨0, 4⟩ }
  revert hlen
  decide

end AbstractCfg

end Liss
