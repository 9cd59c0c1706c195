/-
`cfg/automaton.cpp`: what a symbol does at a position, for the CFGs that `minimise(false)` returns.

After a state the automaton looks for the first edge that answers the symbol, by its tag or by the action of its target.
In a framed CFG tags and actions are never confused: an action belongs to one state, and the edges of a reachable state
lead to each target once.

- `intSuccessors_tag`: a tag is answered by the first edge that carries it;
- `intSuccessors_action`: an action by the edge to its state;
- `Position.step`: the positions that the automaton reaches are before or after a reachable state.
-/
import Liss.Cfg.Threads

namespace Liss

theorem sameSymbol_iff {s : Option Symbol} {sigma : Symbol} :
    sameSymbol s sigma = true ↔ ∃ t, s = some t ∧ t.equals sigma = true := by
  cases s with
  | none => simp [sameSymbol]
  | some t => simp [sameSymbol]

@[simp] theorem sameSymbol_none (sigma : Symbol) : sameSymbol none sigma = false := rfl

@[simp] theorem sameSymbol_self (sigma : Symbol) : sameSymbol (some sigma) sigma = true := by simp [sameSymbol]

/-- equal tags of branches are the same symbol -/
theorem Symbol.ofBranch_eq_of_equals {threadId threadId' s s' n n' : ℕ}
    (h : (Symbol.ofBranch threadId s n).equals (Symbol.ofBranch threadId' s' n') = true) :
    Symbol.ofBranch threadId s n = Symbol.ofBranch threadId' s' n' := by
  have hk := (Symbol.equals_iff_key _ _).1 h
  simp only [Symbol.key, Prod.mk.injEq] at hk
  obtain ⟨hloc, hbranch, -⟩ := hk
  unfold Symbol.ofBranch at hloc hbranch ⊢
  congr

namespace AbstractCfg

variable {c m : AbstractCfg}

/-! ## Symbols of a framed CFG -/

theorem Framed.action_inj (hm : m.Framed) {u v : ℕ} (hu : u ≠ noState) (hv : v ≠ noState) {a b : Symbol}
    (ha : (m.getState u).action = some a) (hb : (m.getState v).action = some b) (hab : a.equals b = true) : u = v := by
  have h := Symbol.loc_eq_of_equals hab
  rw [(hm.own u hu a ha).1, (hm.own v hv b hb).1] at h
  exact congrArg Location.state h

theorem Framed.tag_inj (hm : m.Framed) {u v : ℕ} (hu : u ≠ noState) (hv : v ≠ noState) {e f : Edge}
    (he : e ∈ m.getSuccessors u) (hf : f ∈ m.getSuccessors v) {t t' : Symbol} (ht : e.tag = some t)
    (ht' : f.tag = some t') (h : t.equals t' = true) : t = t' := by
  obtain ⟨s, n, rfl⟩ := hm.tag u hu e he t ht
  obtain ⟨s', n', rfl⟩ := hm.tag v hv f hf t' ht'
  exact Symbol.ofBranch_eq_of_equals h

theorem Framed.operation_tag (hm : m.Framed) {u : ℕ} (hu : u ≠ noState) {e : Edge} (he : e ∈ m.getSuccessors u)
    {t : Symbol} (ht : e.tag = some t) : t.operation = .tag := by
  obtain ⟨s, n, rfl⟩ := hm.tag u hu e he t ht
  rfl

/-- an action is no tag -/
theorem Framed.tag_ne_action (hm : m.Framed) {u v : ℕ} (hu : u ≠ noState) (hv : v ≠ noState) {e : Edge}
    (he : e ∈ m.getSuccessors u) {t a : Symbol} (ht : e.tag = some t) (ha : (m.getState v).action = some a) :
    t.equals a = false := by
  have hop := (hm.own v hv a ha).2
  by_contra hta
  rw [← Symbol.operation_eq_of_equals (by simpa using hta) hop] at hop
  exact hop (hm.operation_tag hu he ht)

theorem edgeSymbol_of_tag {e : Edge} {t : Symbol} (ht : e.tag = some t) : c.edgeSymbol e = some t := by
  simp [edgeSymbol, ht]

theorem edgeSymbol_of_none {e : Edge} (ht : e.tag = none) : c.edgeSymbol e = (c.getState e.dst).action := by
  simp [edgeSymbol, ht]

/-! ## Steps -/

/-- the first edge of `u` that carries the tag -/
def branch (c : AbstractCfg) (u : ℕ) (t : Symbol) : Option Edge :=
  (c.getSuccessors u).find? fun e => sameSymbol e.tag t

theorem branch_some {u : ℕ} {t : Symbol} {e : Edge} (h : c.branch u t = some e) :
    e ∈ c.getSuccessors u ∧ sameSymbol e.tag t = true := by
  unfold branch at h
  exact ⟨List.mem_of_find?_eq_some h, by simpa using List.find?_some h⟩

/-- the first edge that answers the symbol -/
def answer (c : AbstractCfg) (u : ℕ) (sigma : Symbol) : Option Edge :=
  (c.getSuccessors u).find? fun e => sameSymbol e.tag sigma || sameSymbol (c.getState e.dst).action sigma

/-- where an edge takes the thread, and what it earns -/
def follow (c : AbstractCfg) (sigma : Symbol) (e : Edge) : RewardState :=
  if sameSymbol e.tag sigma then ⟨-e.cost, e.dst⟩ else ⟨if -e.cost = 0 then 1 else -e.cost, c.afterAction e.dst⟩

theorem intSuccessors_before (c : AbstractCfg) (u : ℕ) (sigma : Symbol) :
    c.intSuccessors u sigma = if sameSymbol (c.getState u).action sigma then [⟨1, c.afterAction u⟩] else [] := by
  rw [intSuccessors, if_neg (by omega), Int.toNat_natCast]

theorem intNextSymbols_before (c : AbstractCfg) (u : ℕ) : c.intNextSymbols u = (c.getState u).action.toList := by
  rw [intNextSymbols, if_neg (by omega), Int.toNat_natCast]

theorem intIsFinalState_before (c : AbstractCfg) (u : ℕ) : c.intIsFinalState u = (c.getState u).final := by
  rw [intIsFinalState, if_pos (by omega), Int.toNat_natCast]

theorem intSuccessors_after (c : AbstractCfg) {u : ℕ} (hu : u ≠ noState) (sigma : Symbol) :
    c.intSuccessors (-u) sigma = (c.answer u sigma).toList.map (c.follow sigma) := by
  have hpos : (-(u : ℤ)) < 0 := by
    simp only [noState] at hu
    omega
  rw [intSuccessors, if_pos hpos, neg_neg, Int.toNat_natCast, answer]
  induction c.getSuccessors u with
  | nil => rfl
  | cons e es ih =>
    rw [edgeSuccessors, List.find?_cons]
    by_cases h1 : sameSymbol e.tag sigma = true
    · simp [h1, follow]
    · by_cases h2 : sameSymbol (c.getState e.dst).action sigma = true
      · simp [h1, h2, follow]
      · simp [h1, h2, ih]

theorem intNextSymbols_after (c : AbstractCfg) {u : ℕ} (hu : u ≠ noState) :
    c.intNextSymbols (-u) = (c.getSuccessors u).filterMap c.edgeSymbol := by
  have hpos : (-(u : ℤ)) < 0 := by
    simp only [noState] at hu
    omega
  rw [intNextSymbols, if_pos hpos, neg_neg, Int.toNat_natCast]

theorem intIsFinalState_after (c : AbstractCfg) {u : ℕ} (hu : u ≠ noState) : c.intIsFinalState (-u) = true ↔
    ∃ e ∈ c.getSuccessors u, e.tag = none ∧ (c.getState e.dst).final = true := by
  have hpos : ¬(-(u : ℤ)) ≥ 0 := by
    simp only [noState] at hu
    omega
  rw [intIsFinalState, if_neg hpos, neg_neg, Int.toNat_natCast]
  simp

/-- **A tag.** -/
theorem intSuccessors_tag (hm : m.Framed) {u : ℕ} (hu : u ≠ noState) {t : Symbol} (ht : t.operation = .tag) :
    m.intSuccessors (-u) t = (m.branch u t).toList.map fun e => ⟨-e.cost, e.dst⟩ := by
  have hact : ∀ e ∈ m.getSuccessors u, sameSymbol (m.getState e.dst).action t = false := by
    intro e he
    by_contra hsame
    obtain ⟨a, ha, hat⟩ := sameSymbol_iff.1 (by simpa using hsame)
    have hop := (hm.own _ (hm.target u hu e he) a ha).2
    rw [← Symbol.operation_eq_of_equals (Symbol.equals_symm hat) hop] at hop
    exact hop ht
  have heq : m.answer u t = m.branch u t := by
    unfold answer branch
    apply List.find?_congr
    intro e he
    rw [hact e he, Bool.or_false]
  rw [intSuccessors_after m hu, heq]
  cases hb : m.branch u t with
  | none => rfl
  | some e =>
    simp [follow, (branch_some hb).2]

/-- **An action,** whether the edge to its state has a tag or not. -/
theorem intSuccessors_action (hm : m.Framed) {u : ℕ} (hu : u ≠ noState)
    (honce : ((m.getSuccessors u).map Edge.dst).Nodup) {e : Edge} (he : e ∈ m.getSuccessors u) {a : Symbol}
    (ha : (m.getState e.dst).action = some a) :
    m.intSuccessors (-u) a = [⟨if -e.cost = 0 then 1 else -e.cost, m.afterAction e.dst⟩] := by
  have htag : ∀ f ∈ m.getSuccessors u, sameSymbol f.tag a = false := by
    intro f hf
    by_contra hsame
    obtain ⟨t, ht, hta⟩ := sameSymbol_iff.1 (by simpa using hsame)
    simp [hm.tag_ne_action hu (hm.target u hu e he) hf ht ha] at hta
  have hanswer : m.answer u a = some e := by
    unfold answer
    cases hf : (m.getSuccessors u).find? fun e => sameSymbol e.tag a || sameSymbol (m.getState e.dst).action a with
    | none =>
      have := List.find?_eq_none.1 hf e he
      simp [ha] at this
    | some f =>
      have hmem := List.mem_of_find?_eq_some hf
      have hsame := List.find?_some hf
      rw [htag f hmem, Bool.false_or, sameSymbol_iff] at hsame
      obtain ⟨b, hb, hba⟩ := hsame
      have hdst := hm.action_inj (hm.target u hu f hmem) (hm.target u hu e he) hb ha hba
      exact congrArg some (List.inj_on_of_nodup_map honce hmem he hdst)
  rw [intSuccessors_after m hu, hanswer]
  simp [follow, htag e he]

/-! ## Positions -/

/-- before or after a reachable state -/
def Position (c : AbstractCfg) (p : ℤ) : Prop := ∃ u ∈ c.Reached, p = u ∨ p = -u

theorem Reached.edge {u : ℕ} (hu : u ∈ c.Reached) {e : Edge} (he : e ∈ c.getSuccessors u) : e.dst ∈ c.Reached :=
  Relation.ReflTransGen.tail hu ⟨e, he, rfl⟩

theorem position_afterAction {u : ℕ} (hu : u ∈ c.Reached) : c.Position (c.afterAction u) := by
  unfold afterAction
  split
  · rename_i e he
    exact ⟨e.dst, Reached.edge hu (he ▸ List.mem_singleton_self e), Or.inl rfl⟩
  · exact ⟨u, hu, Or.inr rfl⟩

/-- at a state with several successors or with none the automaton stands after it -/
theorem afterAction_cases (c : AbstractCfg) (u : ℕ) :
    (∃ e, c.getSuccessors u = [e] ∧ c.afterAction u = e.dst) ∨
      (c.getSuccessors u).length ≠ 1 ∧ c.afterAction u = -u := by
  unfold afterAction
  split
  · rename_i e he
    exact Or.inl ⟨e, he, rfl⟩
  · rename_i hne
    right
    refine ⟨fun hlen => ?_, rfl⟩
    obtain ⟨e, he⟩ := List.length_eq_one_iff.1 hlen
    exact hne e he

theorem Position.step (hm : m.Framed) {p : ℤ} (hp : m.Position p) {sigma : Symbol} {q : RewardState}
    (hq : q ∈ m.intSuccessors p sigma) : m.Position q.state := by
  obtain ⟨u, hu, rfl | rfl⟩ := hp
  · rw [intSuccessors_before] at hq
    split_ifs at hq
    · rw [List.mem_singleton.1 hq]
      exact position_afterAction hu
    · simp at hq
  · rw [intSuccessors_after m (hm.reached hu)] at hq
    obtain ⟨e, he, rfl⟩ := List.mem_map.1 hq
    have hanswer : m.answer u sigma = some e := by simpa using he
    have hmem := Reached.edge hu (List.mem_of_find?_eq_some hanswer)
    unfold follow
    split_ifs
    · exact ⟨e.dst, hmem, Or.inl rfl⟩
    · exact position_afterAction hmem
    · exact position_afterAction hmem

/-- the positions that the automaton reaches from its start, under any symbols -/
def ReachedPosition (c : AbstractCfg) (p : ℤ) : Prop :=
  Relation.ReflTransGen (fun p q => ∃ sigma, ∃ r ∈ c.intSuccessors p sigma, r.state = q) (-1) p

theorem ReachedPosition.position (hm : m.Framed) {p : ℤ} (hp : m.ReachedPosition p) : m.Position p := by
  induction hp with
  | refl => exact ⟨1, .refl, Or.inr rfl⟩
  | tail _ hpq ih =>
    obtain ⟨sigma, r, hr, rfl⟩ := hpq
    exact ih.step hm hr

/-- the start position, or where the automaton is after the action of a state -/
def after (c : AbstractCfg) (u : ℕ) : ℤ := if u = 1 then -1 else c.afterAction u

theorem after_of_choice {u : ℕ} (hu : u = 1 ∨ (c.getSuccessors u).length ≠ 1) : c.after u = -u := by
  unfold after
  split_ifs with h1
  · rw [h1]
    rfl
  · rcases c.afterAction_cases u with ⟨e, he, -⟩ | ⟨-, hpos⟩
    · rcases hu with hu | hlen
      · exact absurd hu h1
      · simp [he] at hlen
    · exact hpos

/-- final states have no action -/
theorem Framed.not_final (hm : m.Framed) {u : ℕ} (hu : u ∈ m.Reached) {e : Edge} (he : e ∈ m.getSuccessors u) :
    (m.getState u).final = false := by
  by_contra hf
  have hnil := (hm.exit u (hm.reached hu) (by simpa using hf)).2
  simp [hnil] at he

end AbstractCfg

end Liss
