/-
The visitors come to an end.

A call adds a state before the body is looked at, and no thread has more than `maxStates` of them; a block is entered
once. So with fuel for as many calls within calls as there are states, there is a CFG or an error. More fuel gives the
same. Where there is a CFG, all that is called has been gone through, so a recursive function has none.

- `Front.Answers.bind`: the rule for one visitor after another;
- `processFunction_answers`: there is an answer;
- `processFunction_le`: more fuel;
- `acc_of_processFunction`: calls within calls end.
-/
import Liss.ClangInterf.Exploration

namespace Liss

namespace Front

variable {α β : Type} {x y : Front α} {P : α → Prop} {Q : β → Prop} {f g : α → Front β}

/-- there is an answer, and `P` holds of it if it is no error -/
def Answers (x : Front α) (P : α → Prop) : Prop := ∃ r, x = some r ∧ ∀ a, r = .ok a → P a

theorem answers_some {r : Except FrontError α} (h : ∀ a, r = .ok a → P a) : Answers (some r) P := ⟨r, rfl, h⟩

theorem answers_ok {a : α} (h : P a) : Answers (some (.ok a)) P := answers_some fun _ hb => Except.ok.inj hb ▸ h

/-- **One after another.** -/
theorem Answers.bind (hx : Answers x P) (hf : ∀ a, P a → Answers (f a) Q) : Answers (x.bind f) Q := by
  obtain ⟨r, rfl, hr⟩ := hx
  cases r with
  | error e => exact answers_some fun a ha => by simp at ha
  | ok a => exact hf a (hr a rfl)

theorem Answers.imp (hx : Answers x P) {P' : α → Prop} (h : ∀ a, P a → P' a) : Answers x P' := by
  obtain ⟨r, rfl, hr⟩ := hx
  exact answers_some fun a ha => h a (hr a ha)

/-- where `x` has an answer, `y` has the same -/
def Le (x y : Front α) : Prop := ∀ r, x = some r → y = some r

theorem Le.refl (x : Front α) : Le x x := fun _ h => h

theorem Le.bind (hx : Le x y) (hf : ∀ a, Le (f a) (g a)) : Le (x.bind f) (y.bind g) := by
  intro r h
  cases x with
  | none => simp [Front.bind] at h
  | some r' =>
    rw [hx r' rfl]
    cases r' with
    | error e => exact h
    | ok a => exact hf a r h

end Front

namespace FrontEnd

open AbstractCfg StatementVisitor

variable {u : TranslationUnit} {call call' : Inliner} {cfg : ClangCfg} {k : VisitContext} {n : ℕ}

/-! ## Statements -/

/-- `call` answers when the thread has room for `n` states at most, and takes no state away -/
def Answering (call : Inliner) (n : ℕ) : Prop :=
  ∀ cfg c s, maxStates ≤ c.states.length + n → (call cfg c s).Answers fun r => c.states.length ≤ r.thread.states.length

theorem lt_of_addPlain {v w : StatementVisitor} {id : ℕ} (h : addPlain k id v = .ok w) : v.size < maxStates := by
  unfold addPlain at h
  cases hadd : v.thread.addDummyState with
  | none => simp [hadd, StatementVisitor.addState] at h
  | some c =>
    unfold addDummyState at hadd
    split_ifs at hadd with hfull
    exact not_le.1 hfull

theorem size_spliceCall (v : StatementVisitor) (r : Inlined) : (spliceCall v r).size = r.thread.states.length :=
  (alike_addSuccessor _ r.entryState).size

/-- **A call.** It takes one of the states that are left. -/
theorem inlineCall_answers {v : StatementVisitor} (hcall : ∀ k < n, Answering call k) (hn : maxStates ≤ v.size + n)
    (id : ℕ) (cfg : ClangCfg) : (inlineCall call k id cfg v).Answers fun w => v.size ≤ w.size := by
  refine (Front.answers_some (P := fun w => w.size = v.size + 1 ∧ v.size < maxStates) fun w h => ?_).bind ?_
  · exact ⟨size_addPlain h, lt_of_addPlain h⟩
  · rintro w ⟨hw, hlt⟩
    have hws : w.thread.states.length = v.size + 1 := hw
    refine (hcall (n - 1) (by omega) cfg w.thread w.identifierStore (by omega)).bind fun r hr => ?_
    have hle : v.size ≤ (spliceCall w r).size := by
      rw [size_spliceCall]
      omega
    refine (Front.answers_some (P := fun y => v.size ≤ y.size) fun y h => ?_).bind fun y hy => Front.answers_ok ?_
    · rw [size_addPlain h]
      exact hle.trans (Nat.le_succ _)
    · exact hy.trans (length_states_modifyState _ _ _).ge

mutual

theorem traverseStmt_answers {v : StatementVisitor} (hcall : ∀ k < n, Answering call k)
    (hn : maxStates ≤ v.size + n) (writer : Bool) (s : Stmt) :
    (traverseStmt u call k writer s v).Answers fun w => v.size ≤ w.size := by
  by_cases hseen : s.id ∈ k.seenStmt
  · rw [traverseStmt_seen hseen]
    exact Front.answers_ok (le_refl _)
  · match s with
    | .artificial id =>
      rw [traverseStmt_artificial hseen]
      exact Front.answers_some fun w h => (size_addPlain h).ge.trans' (Nat.le_succ _)
    | .declRefExpr id decl =>
      rw [traverseStmt_declRefExpr hseen]
      exact Front.answers_some fun w h => (size_visitDeclRefExpr h).ge.trans' (Nat.le_add_right _ _)
    | .binAssign id lhs rhs =>
      rw [traverseStmt_binAssign hseen]
      refine (traverseStmt_answers (v := resetNondet v) hcall hn writer rhs).bind fun w hw => ?_
      have hv : v.size ≤ w.size := hw
      refine (traverseStmt_answers (v := w.inner) hcall (hn.trans (Nat.add_le_add_right hv n)) true lhs).bind
        fun x hx => Front.answers_ok ?_
      rw [size_joinInner]
      exact hv.trans hx
    | .returnStmt id children =>
      rw [traverseStmt_returnStmt hseen]
      refine (traverseChildren_answers (v := resetNondet v) hcall hn writer children).bind fun w hw => ?_
      exact Front.answers_some fun x h => (size_addPlain h).ge.trans' (hw.trans (Nat.le_succ _))
    | .callExpr id callee argument children =>
      rw [traverseStmt_callExpr hseen]
      split
      · exact Front.answers_some fun w h => by simp at h
      · exact Front.answers_some fun w h => (size_addSync h).ge.trans' (Nat.le_succ _)
      · refine (traverseChildren_answers (v := resetNondet v) hcall hn writer children).bind fun w hw => ?_
        have hv : v.size ≤ w.size := hw
        split
        · exact Front.answers_ok hv
        · exact (inlineCall_answers hcall (hn.trans (Nat.add_le_add_right hv n)) id _).imp fun x hx => hv.trans hx
    | .other id children =>
      rw [traverseStmt_other hseen]
      exact traverseChildren_answers (v := resetNondet v) hcall hn writer children

theorem traverseChildren_answers {v : StatementVisitor} (hcall : ∀ k < n, Answering call k)
    (hn : maxStates ≤ v.size + n) (writer : Bool) (l : List Stmt) :
    (traverseChildren u call k writer l v).Answers fun w => v.size ≤ w.size := by
  match l with
  | [] =>
    rw [traverseChildren]
    exact Front.answers_ok (le_refl _)
  | s :: l =>
    rw [traverseChildren]
    refine (traverseStmt_answers hcall hn writer s).bind fun w hw => ?_
    exact (traverseChildren_answers hcall (hn.trans (Nat.add_le_add_right hw n)) writer l).imp fun x hx => hw.trans hx

end

theorem traverseElements_answers {v : StatementVisitor} (hcall : ∀ k < n, Answering call k)
    (hn : maxStates ≤ v.size + n) (seen : List ℕ) (l : List Stmt) :
    (traverseElements u call seen l v).Answers fun w => v.size ≤ w.size := by
  induction l generalizing seen v with
  | nil => exact Front.answers_ok (le_refl _)
  | cons s l ih =>
    rw [traverseElements]
    refine (traverseStmt_answers hcall hn false s).bind fun w hw => ?_
    exact (ih (hn.trans (Nat.add_le_add_right hw n)) _).imp fun x hx => hw.trans hx

/-! ## Blocks -/

/-- the number of blocks that have not been visited -/
def unvisited (cfg : ClangCfg) (v : CfgVisitor) : ℕ :=
  ((Finset.range cfg.blocks.length).filter fun i => (v.blockMap.lookup i).isNone).card

theorem unvisited_le (cfg : ClangCfg) {v w : CfgVisitor} (h : v.visited ⊆ w.visited) :
    unvisited cfg w ≤ unvisited cfg v := by
  refine Finset.card_le_card fun i hi => ?_
  rw [Finset.mem_filter] at hi ⊢
  refine ⟨hi.1, Option.isNone_iff_eq_none.2 ?_⟩
  by_contra hv
  have hmem : i ∈ w.visited := h (Option.isSome_iff_ne_none.2 hv)
  have hnone : w.blockMap.lookup i = none := Option.isNone_iff_eq_none.1 hi.2
  exact absurd hnone (Option.isSome_iff_ne_none.1 hmem)

theorem unvisited_lt {v w : CfgVisitor} {block : ℕ} (hblock : block < cfg.blocks.length)
    (hnone : v.blockMap.lookup block = none) (h : w.visited = insert block v.visited) :
    unvisited cfg w < unvisited cfg v := by
  refine Finset.card_lt_card (Finset.ssubset_iff_subset_ne.2 ⟨fun i hi => ?_, fun heq => ?_⟩)
  · rw [Finset.mem_filter] at hi ⊢
    refine ⟨hi.1, Option.isNone_iff_eq_none.2 ?_⟩
    by_contra hv
    have hmem : i ∈ w.visited := h ▸ Set.mem_insert_of_mem _ (Option.isSome_iff_ne_none.2 hv)
    exact absurd (Option.isNone_iff_eq_none.1 hi.2) (Option.isSome_iff_ne_none.1 hmem)
  · have hold : block ∈ (Finset.range cfg.blocks.length).filter fun i => (v.blockMap.lookup i).isNone :=
      Finset.mem_filter.2 ⟨Finset.mem_range.2 hblock, Option.isNone_iff_eq_none.2 hnone⟩
    rw [← heq, Finset.mem_filter] at hold
    have hmem : block ∈ w.visited := h ▸ Set.mem_insert ..
    exact absurd (Option.isNone_iff_eq_none.1 hold.2) (Option.isSome_iff_ne_none.1 hmem)

/-- the visitor after a new block -/
theorem markBlock_enterBlock (cfg : ClangCfg) (lastNondet : Bool) {v w : CfgVisitor} {sv : StatementVisitor}
    {block lastState last : ℕ} (h : enterBlock block lastState v sv = .ok (w, last)) :
    (markBlock cfg block last lastNondet w).visited = insert block v.visited ∧
      sv.size ≤ (markBlock cfg block last lastNondet w).size := by
  have hconnect : ∀ (d : AbstractCfg) x y, (connect d x y).states.length = d.states.length := by
    intro d x y
    unfold connect
    split_ifs
    · rfl
    · rfl
  have hmark : (markBlock cfg block last lastNondet w).size = w.size := by
    unfold markBlock CfgVisitor.size
    dsimp only
    split_ifs
    · exact length_states_modifyState _ _ _
    · rfl
  rw [hmark]
  unfold enterBlock at h
  split_ifs at h with hprogress
  · obtain ⟨rfl, rfl⟩ := Prod.mk.inj (Except.ok.inj h)
    exact ⟨visited_cons rfl, (hconnect _ _ _).ge⟩
  · cases hadd : sv.thread.addDummyState with
    | none => simp [hadd] at h
    | some thread =>
      simp only [hadd, Except.ok.injEq, Prod.mk.injEq] at h
      obtain ⟨rfl, rfl⟩ := h
      refine ⟨visited_cons rfl, ?_⟩
      unfold addDummyState at hadd
      split_ifs at hadd
      obtain rfl := Option.some.inj hadd
      show sv.size ≤ (connect _ _ _).states.length
      rw [hconnect, List.length_append]
      exact Nat.le_add_right _ _

theorem processSuccs_answers {process : ℕ → CfgVisitor → Front CfgVisitor} {l : List (Option ℕ)} {v : CfgVisitor}
    (hprocess : ∀ j, some j ∈ l → ∀ x, v.size ≤ x.size → v.visited ⊆ x.visited →
      (process j x).Answers fun w => x.size ≤ w.size ∧ x.visited ⊆ w.visited) :
    (processSuccs process l v).Answers fun w => v.size ≤ w.size ∧ v.visited ⊆ w.visited := by
  induction l generalizing v with
  | nil => exact Front.answers_ok ⟨le_refl _, fun _ h => h⟩
  | cons o l ih =>
    have hrest := fun j (hj : some j ∈ l) => hprocess j (List.mem_cons_of_mem _ hj)
    cases o with
    | none => exact ih hrest
    | some j =>
      rw [processSuccs]
      refine (hprocess j (List.mem_cons_self ..) v (le_refl _) fun _ h => h).bind fun x hx => ?_
      refine (ih fun i hi y hy1 hy2 => hrest i hi y (hx.1.trans hy1) (hx.2.trans hy2)).imp fun w hw => ?_
      exact ⟨hx.1.trans hw.1, hx.2.trans hw.2⟩

/-- **The search.** -/
theorem processBlock_answers (hcall : ∀ k < n, Answering call k) {v : CfgVisitor} (hn : maxStates ≤ v.size + n)
    {depth block lastState : ℕ} {parentBlocks : List ℕ} (hblock : block < cfg.blocks.length)
    (hdepth : unvisited cfg v < depth) :
    (processBlock u call cfg depth parentBlocks lastState block v).Answers
      fun w => v.size ≤ w.size ∧ v.visited ⊆ w.visited := by
  induction depth generalizing v block lastState parentBlocks with
  | zero => exact absurd hdepth (Nat.not_lt_zero _)
  | succ depth ih =>
    rw [processBlock]
    cases hlookup : v.blockMap.lookup block with
    | some first => exact Front.answers_ok ⟨le_refl _, fun _ h => h⟩
    | none =>
      refine (traverseElements_answers (v := { thread := v.thread, identifierStore := v.identifierStore }) hcall hn []
        (cfg.block block).elements).bind fun sv hsv => ?_
      refine (Front.answers_some (P := fun p => (markBlock cfg block p.2 sv.lastNondet p.1).visited =
        insert block v.visited ∧ sv.size ≤ (markBlock cfg block p.2 sv.lastNondet p.1).size) fun p hp =>
          markBlock_enterBlock cfg sv.lastNondet hp).bind ?_
      rintro ⟨w, last⟩ ⟨hvisited, hsize⟩
      have hle : v.size ≤ (markBlock cfg block last sv.lastNondet w).size := hsv.trans hsize
      have hless := unvisited_lt hblock hlookup hvisited
      refine (processSuccs_answers fun j hj x hx1 hx2 => ?_).imp fun x hx => ⟨hle.trans hx.1, ?_⟩
      · refine ih ?_ (ClangCfg.succ_lt hj).1 ?_
        · have hxs : v.size ≤ x.size := hle.trans hx1
          omega
        · have hxu := unvisited_le cfg hx2
          omega
      · exact (hvisited ▸ Set.subset_insert block v.visited).trans hx.2

/-! ## Functions -/

/-- **There is an answer.** -/
theorem processFunction_answers {fuel : ℕ} (hn : n < fuel) : Answering (processFunction u fuel) n := by
  induction fuel generalizing n with
  | zero => exact absurd hn (Nat.not_lt_zero n)
  | succ fuel ih =>
    intro cfg c s hc
    rw [processFunction]
    have hcard : unvisited cfg { thread := c, identifierStore := s } < cfg.blocks.length + 1 := by
      refine Nat.lt_succ_of_le ((Finset.card_filter_le _ _).trans ?_)
      rw [Finset.card_range]
    refine (processBlock_answers (v := { thread := c, identifierStore := s }) (fun k hk => ih (by omega)) hc
      cfg.range.1 hcard).bind fun w hw => ?_
    exact Front.answers_ok hw.1

/-! ## More fuel -/

mutual

theorem traverseStmt_le (hcall : ∀ cfg c s, Front.Le (call cfg c s) (call' cfg c s)) (writer : Bool) (s : Stmt)
    (v : StatementVisitor) : Front.Le (traverseStmt u call k writer s v) (traverseStmt u call' k writer s v) := by
  by_cases hseen : s.id ∈ k.seenStmt
  · rw [traverseStmt_seen hseen, traverseStmt_seen hseen]
    exact .refl _
  · match s with
    | .artificial id =>
      rw [traverseStmt_artificial hseen, traverseStmt_artificial hseen]
      exact .refl _
    | .declRefExpr id decl =>
      rw [traverseStmt_declRefExpr hseen, traverseStmt_declRefExpr hseen]
      exact .refl _
    | .binAssign id lhs rhs =>
      rw [traverseStmt_binAssign hseen, traverseStmt_binAssign hseen]
      exact (traverseStmt_le hcall writer rhs _).bind fun w => (traverseStmt_le hcall true lhs _).bind fun x => .refl _
    | .returnStmt id children =>
      rw [traverseStmt_returnStmt hseen, traverseStmt_returnStmt hseen]
      exact (traverseChildren_le hcall writer children _).bind fun w => .refl _
    | .callExpr id callee argument children =>
      rw [traverseStmt_callExpr hseen, traverseStmt_callExpr hseen]
      split
      · exact .refl _
      · exact .refl _
      · refine (traverseChildren_le hcall writer children _).bind fun w => ?_
        split
        · exact .refl _
        · exact (Front.Le.refl _).bind fun x => (hcall _ _ _).bind fun r => .refl _
    | .other id children =>
      rw [traverseStmt_other hseen, traverseStmt_other hseen]
      exact traverseChildren_le hcall writer children _

theorem traverseChildren_le (hcall : ∀ cfg c s, Front.Le (call cfg c s) (call' cfg c s)) (writer : Bool)
    (l : List Stmt) (v : StatementVisitor) :
    Front.Le (traverseChildren u call k writer l v) (traverseChildren u call' k writer l v) := by
  match l with
  | [] =>
    rw [traverseChildren, traverseChildren]
    exact .refl _
  | s :: l =>
    rw [traverseChildren, traverseChildren]
    exact (traverseStmt_le hcall writer s v).bind fun w => traverseChildren_le hcall writer l w

end

theorem traverseElements_le (hcall : ∀ cfg c s, Front.Le (call cfg c s) (call' cfg c s)) (seen : List ℕ)
    (l : List Stmt) (v : StatementVisitor) :
    Front.Le (traverseElements u call seen l v) (traverseElements u call' seen l v) := by
  induction l generalizing seen v with
  | nil => exact .refl _
  | cons s l ih => exact (traverseStmt_le hcall false s v).bind fun w => ih _ w

theorem processSuccs_le {process process' : ℕ → CfgVisitor → Front CfgVisitor}
    (h : ∀ j v, Front.Le (process j v) (process' j v)) (l : List (Option ℕ)) (v : CfgVisitor) :
    Front.Le (processSuccs process l v) (processSuccs process' l v) := by
  induction l generalizing v with
  | nil => exact .refl _
  | cons o l ih =>
    cases o with
    | none => exact ih v
    | some j => exact (h j v).bind fun w => ih w

theorem processBlock_le (hcall : ∀ cfg c s, Front.Le (call cfg c s) (call' cfg c s)) (depth : ℕ)
    (parentBlocks : List ℕ) (lastState block : ℕ) (v : CfgVisitor) :
    Front.Le (processBlock u call cfg depth parentBlocks lastState block v)
      (processBlock u call' cfg depth parentBlocks lastState block v) := by
  induction depth generalizing parentBlocks lastState block v with
  | zero => exact .refl _
  | succ depth ih =>
    rw [processBlock, processBlock]
    split
    · exact .refl _
    · refine (traverseElements_le hcall _ _ _).bind fun sv => (Front.Le.refl _).bind fun w => ?_
      exact processSuccs_le (fun j x => ih _ _ j x) _ _

/-- **More fuel.** -/
theorem processFunction_le {fuel fuel' : ℕ} (hle : fuel ≤ fuel') (cfg : ClangCfg) (c : AbstractCfg)
    (s : IdentifierStore) : Front.Le (processFunction u fuel cfg c s) (processFunction u fuel' cfg c s) := by
  induction fuel generalizing fuel' cfg c s with
  | zero => exact fun r h => by simp [processFunction] at h
  | succ fuel ih =>
    obtain ⟨m, rfl⟩ : ∃ m, fuel' = m + 1 := ⟨fuel' - 1, by omega⟩
    rw [processFunction, processFunction]
    exact (processBlock_le (fun cfg c s => ih (by omega) cfg c s) _ _ _ _ _).bind fun v => .refl _

/-! ## Recursion -/

/-- the body has been put in somewhere -/
def Inserted (call : Inliner) (f : ClangCfg) : Prop := ∃ c s r, call f c s = some (.ok r)

mutual

theorem traverseStmt_inserted {v w : StatementVisitor} {writer : Bool} {s : Stmt}
    (h : traverseStmt u call k writer s v = some (.ok w)) : ∀ f ∈ stmtCallees u k.seenStmt s, Inserted call f := by
  by_cases hseen : s.id ∈ k.seenStmt
  · unfold stmtCallees
    rw [if_pos hseen]
    exact fun f hf => absurd hf (List.not_mem_nil)
  · match s with
    | .artificial id =>
      rw [stmtCallees, if_neg hseen]
      exact fun f hf => absurd hf (List.not_mem_nil)
    | .declRefExpr id decl =>
      rw [stmtCallees, if_neg hseen]
      exact fun f hf => absurd hf (List.not_mem_nil)
    | .binAssign id lhs rhs =>
      rw [traverseStmt_binAssign hseen] at h
      rw [stmtCallees, if_neg hseen]
      obtain ⟨v1, h1, h⟩ := Front.bind_ok h
      obtain ⟨v2, h2, -⟩ := Front.bind_ok h
      exact List.forall_mem_append.2 ⟨traverseStmt_inserted h1, traverseStmt_inserted h2⟩
    | .returnStmt id children =>
      rw [traverseStmt_returnStmt hseen] at h
      rw [stmtCallees, if_neg hseen]
      obtain ⟨v1, h1, -⟩ := Front.bind_ok h
      exact traverseChildren_inserted h1
    | .callExpr id callee argument children =>
      rw [traverseStmt_callExpr hseen] at h
      rw [stmtCallees, if_neg hseen]
      split at h
      · simp at h
      · rename_i hsync
        simp only [hsync]
        exact fun f hf => absurd hf (List.not_mem_nil)
      · rename_i hsync
        simp only [hsync]
        obtain ⟨v1, h1, h⟩ := Front.bind_ok h
        refine List.forall_mem_append.2 ⟨traverseChildren_inserted h1, fun f hf => ?_⟩
        rw [Option.mem_toList] at hf
        simp only [hf] at h
        obtain ⟨v2, -, h⟩ := Front.bind_ok h
        obtain ⟨r, hr, -⟩ := Front.bind_ok h
        exact ⟨_, _, r, hr⟩
    | .other id children =>
      rw [traverseStmt_other hseen] at h
      rw [stmtCallees, if_neg hseen]
      exact traverseChildren_inserted h

theorem traverseChildren_inserted {v w : StatementVisitor} {writer : Bool} {l : List Stmt}
    (h : traverseChildren u call k writer l v = some (.ok w)) :
    ∀ f ∈ childrenCallees u k.seenStmt l, Inserted call f := by
  match l with
  | [] =>
    rw [childrenCallees]
    exact fun f hf => absurd hf (List.not_mem_nil)
  | s :: l =>
    rw [traverseChildren] at h
    rw [childrenCallees]
    obtain ⟨v1, h1, h⟩ := Front.bind_ok h
    exact List.forall_mem_append.2 ⟨traverseStmt_inserted h1, traverseChildren_inserted h⟩

end

theorem traverseElements_inserted {v w : StatementVisitor} {seen : List ℕ} {l : List Stmt}
    (h : traverseElements u call seen l v = some (.ok w)) : ∀ f ∈ elementsCallees u seen l, Inserted call f := by
  induction l generalizing seen v with
  | nil => exact fun f hf => absurd hf (List.not_mem_nil)
  | cons s l ih =>
    rw [traverseElements] at h
    obtain ⟨v1, h1, h⟩ := Front.bind_ok h
    exact List.forall_mem_append.2 ⟨traverseStmt_inserted (k := ⟨seen, u.place⟩) h1, ih h⟩

/-- the statements of a new block have been gone through, and the blocks behind it visited -/
structure Searches (u : TranslationUnit) (call : Inliner) (cfg : ClangCfg) (v : CfgVisitor) (T : Set ℕ)
    (w : CfgVisitor) : Prop where
  kept : v.visited ⊆ w.visited
  here : T ⊆ w.visited
  behind : ∀ i ∈ w.visited, i ∉ v.visited → ∀ j, some j ∈ (cfg.block i).succs → j ∈ w.visited
  traversed : ∀ i ∈ w.visited, i ∉ v.visited →
    ∃ x y, traverseElements u call [] (cfg.block i).elements x = some (.ok y)

theorem Searches.trans {v w x : CfgVisitor} {T T' : Set ℕ} (h : Searches u call cfg v T w)
    (h' : Searches u call cfg w T' x) : Searches u call cfg v (T ∪ T') x := by
  refine ⟨h.kept.trans h'.kept, Set.union_subset (h.here.trans h'.kept) h'.here, fun i hi hni j hj => ?_,
    fun i hi hni => ?_⟩
  · by_cases hw : i ∈ w.visited
    · exact h'.kept (h.behind i hw hni j hj)
    · exact h'.behind i hi hw j hj
  · by_cases hw : i ∈ w.visited
    · exact h.traversed i hw hni
    · exact h'.traversed i hi hw

theorem processSuccs_searches {process : ℕ → CfgVisitor → Front CfgVisitor} {l : List (Option ℕ)} {v w : CfgVisitor}
    (hprocess : ∀ j v w, process j v = some (.ok w) → Searches u call cfg v {j} w)
    (h : processSuccs process l v = some (.ok w)) : Searches u call cfg v {j | some j ∈ l} w := by
  induction l generalizing v with
  | nil =>
    obtain rfl := Except.ok.inj (Option.some.inj h)
    exact ⟨fun _ h => h, fun j hj => by simp at hj, fun i hi hni => absurd hi hni, fun i hi hni => absurd hi hni⟩
  | cons o l ih =>
    cases o with
    | none =>
      have hset : {j : ℕ | some j ∈ none :: l} = {j | some j ∈ l} := by ext; simp
      rw [hset]
      exact ih h
    | some j =>
      rw [processSuccs] at h
      obtain ⟨x, hx, h⟩ := Front.bind_ok h
      have hset : {i : ℕ | some i ∈ some j :: l} = {j} ∪ {i | some i ∈ l} := by ext; simp
      rw [hset]
      exact (hprocess j v x hx).trans (ih h)

theorem processBlock_searches {depth block lastState : ℕ} {parentBlocks : List ℕ} {v w : CfgVisitor}
    (h : processBlock u call cfg depth parentBlocks lastState block v = some (.ok w)) :
    Searches u call cfg v {block} w := by
  induction depth generalizing parentBlocks lastState block v w with
  | zero => simp [processBlock] at h
  | succ depth ih =>
    rw [processBlock] at h
    cases hlookup : v.blockMap.lookup block with
    | some first =>
      simp only [hlookup] at h
      obtain rfl := Except.ok.inj (Option.some.inj h)
      exact ⟨fun _ h => h, Set.singleton_subset_iff.2 (mem_visited.2 ⟨first, hlookup⟩), fun i hi hni => absurd hi hni,
        fun i hi hni => absurd hi hni⟩
    | none =>
      simp only [hlookup] at h
      obtain ⟨sv, hsv, h⟩ := Front.bind_ok h
      obtain ⟨⟨x, last⟩, hx, h⟩ := Front.bind_ok h
      have hvisited := (markBlock_enterBlock cfg sv.lastNondet (Option.some.inj hx)).1
      have hsuccs := processSuccs_searches (fun j v w => ih) h
      have hsub := hvisited ▸ hsuccs.kept
      refine ⟨(Set.subset_insert ..).trans hsub, Set.singleton_subset_iff.2 (hsub (Set.mem_insert ..)),
        fun i hi hni => ?_, fun i hi hni => ?_⟩
      · by_cases hib : i = block
        · subst hib
          exact fun j hj => hsuccs.here hj
        · exact hsuccs.behind i hi fun hmem => by
            rw [hvisited] at hmem
            exact hmem.elim hib hni
      · by_cases hib : i = block
        · subst hib
          exact ⟨_, sv, hsv⟩
        · exact hsuccs.traversed i hi fun hmem => by
            rw [hvisited] at hmem
            exact hmem.elim hib hni

/-- the blocks of a function that has been processed -/
theorem processFunction_traversed {fuel : ℕ} {c : AbstractCfg} {s : IdentifierStore} {r : Inlined}
    (h : processFunction u (fuel + 1) cfg c s = some (.ok r)) {i : ℕ} (hi : cfg.Reachable i) :
    ∃ x y, traverseElements u (processFunction u fuel) [] (cfg.block i).elements x = some (.ok y) := by
  rw [processFunction] at h
  obtain ⟨w, hw, -⟩ := Front.bind_ok h
  have hsearch := processBlock_searches hw
  have hnew : ∀ i, i ∉ CfgVisitor.visited { thread := c, identifierStore := s } := fun i hi => by
    obtain ⟨first, hfirst⟩ := mem_visited.1 hi
    simp at hfirst
  refine hsearch.traversed i ?_ (hnew i)
  induction hi with
  | refl => exact hsearch.here rfl
  | tail _ hj ih => exact hsearch.behind _ ih (hnew _) _ hj

/-- all that a function calls has been put in -/
theorem processFunction_inserted {fuel : ℕ} {c : AbstractCfg} {s : IdentifierStore} {r : Inlined}
    (h : processFunction u (fuel + 1) cfg c s = some (.ok r)) {f : ClangCfg} (hf : Calls u cfg f) :
    Inserted (processFunction u fuel) f := by
  obtain ⟨i, hi, hmem⟩ := hf
  obtain ⟨x, y, hxy⟩ := processFunction_traversed h hi
  exact traverseElements_inserted hxy f hmem

/-- **Calls within calls end.** -/
theorem acc_of_processFunction {fuel : ℕ} {c : AbstractCfg} {s : IdentifierStore} {r : Inlined}
    (h : processFunction u fuel cfg c s = some (.ok r)) : Acc (fun f g => Calls u g f) cfg := by
  induction fuel generalizing cfg c s r with
  | zero => simp [processFunction] at h
  | succ fuel ih =>
    refine Acc.intro cfg fun f hf => ?_
    obtain ⟨c', s', r', h'⟩ := processFunction_inserted h hf
    exact ih h'

/-- a function that calls itself is not accessible -/
theorem not_calls_of_acc (h : Acc (fun f g => Calls u g f) cfg) : ¬Relation.TransGen (Calls u) cfg cfg := by
  have hacc : Acc (Relation.TransGen fun f g => Calls u g f) cfg := Acc.transGen h
  clear h
  rw [← Relation.transGen_swap]
  intro hcycle
  induction hacc with
  | intro x _ ih => exact ih x hcycle hcycle

/-! ## Something is read -/

theorem exists_mem_mul {l m : Language Event} (hl : ∃ w, w ∈ l) (hm : ∃ w, w ∈ m) : ∃ w, w ∈ l * m := by
  obtain ⟨x, hx⟩ := hl
  obtain ⟨y, hy⟩ := hm
  exact ⟨x ++ y, Language.append_mem_mul hx hy⟩

mutual

theorem exists_mem_stmtMeaning {m : ClangCfg → Language Event} {v w : StatementVisitor} {writer : Bool} {s : Stmt}
    (hcall : ∀ f ∈ stmtCallees u k.seenStmt s, ∃ w, w ∈ m f) (h : traverseStmt u call k writer s v = some (.ok w)) :
    ∃ w, w ∈ stmtMeaning u m k.seenStmt writer s := by
  by_cases hseen : s.id ∈ k.seenStmt
  · unfold stmtMeaning
    rw [if_pos hseen]
    exact ⟨[], rfl⟩
  · match s with
    | .artificial id =>
      rw [stmtMeaning, if_neg hseen]
      exact ⟨[], rfl⟩
    | .declRefExpr id decl =>
      rw [stmtMeaning, if_neg hseen]
      exact ⟨_, rfl⟩
    | .binAssign id lhs rhs =>
      rw [traverseStmt_binAssign hseen] at h
      rw [stmtCallees, if_neg hseen] at hcall
      rw [stmtMeaning, if_neg hseen]
      obtain ⟨v1, h1, h⟩ := Front.bind_ok h
      obtain ⟨v2, h2, -⟩ := Front.bind_ok h
      exact exists_mem_mul (exists_mem_stmtMeaning (fun f hf => hcall f (List.mem_append_left _ hf)) h1)
        (exists_mem_stmtMeaning (fun f hf => hcall f (List.mem_append_right _ hf)) h2)
    | .returnStmt id children =>
      rw [traverseStmt_returnStmt hseen] at h
      rw [stmtCallees, if_neg hseen] at hcall
      rw [stmtMeaning, if_neg hseen]
      obtain ⟨v1, h1, -⟩ := Front.bind_ok h
      exact exists_mem_childrenMeaning hcall h1
    | .callExpr id callee argument children =>
      rw [traverseStmt_callExpr hseen] at h
      rw [stmtCallees, if_neg hseen] at hcall
      split at h
      · simp at h
      · rename_i hsync
        rw [stmtMeaning, if_neg hseen]
        simp only [hsync]
        exact ⟨_, rfl⟩
      · rename_i hsync
        rw [stmtMeaning, if_neg hseen]
        simp only [hsync] at hcall ⊢
        obtain ⟨v1, h1, -⟩ := Front.bind_ok h
        refine exists_mem_mul (exists_mem_childrenMeaning (fun f hf => hcall f (List.mem_append_left _ hf)) h1) ?_
        cases hbody : calleeBody u callee with
        | none => exact ⟨[], rfl⟩
        | some f => exact hcall f (List.mem_append_right _ (by simp [hbody]))
    | .other id children =>
      rw [traverseStmt_other hseen] at h
      rw [stmtCallees, if_neg hseen] at hcall
      rw [stmtMeaning, if_neg hseen]
      exact exists_mem_childrenMeaning hcall h

theorem exists_mem_childrenMeaning {m : ClangCfg → Language Event} {v w : StatementVisitor} {writer : Bool}
    {l : List Stmt} (hcall : ∀ f ∈ childrenCallees u k.seenStmt l, ∃ w, w ∈ m f)
    (h : traverseChildren u call k writer l v = some (.ok w)) :
    ∃ w, w ∈ childrenMeaning u m k.seenStmt writer l := by
  match l with
  | [] =>
    rw [childrenMeaning]
    exact ⟨[], rfl⟩
  | s :: l =>
    rw [traverseChildren] at h
    rw [childrenCallees] at hcall
    rw [childrenMeaning]
    obtain ⟨v1, h1, h⟩ := Front.bind_ok h
    exact exists_mem_mul (exists_mem_stmtMeaning (fun f hf => hcall f (List.mem_append_left _ hf)) h1)
      (exists_mem_childrenMeaning (fun f hf => hcall f (List.mem_append_right _ hf)) h)

end

theorem exists_mem_elementsMeaning {m : ClangCfg → Language Event} {v w : StatementVisitor} {seen : List ℕ}
    {l : List Stmt} (hcall : ∀ f ∈ elementsCallees u seen l, ∃ w, w ∈ m f)
    (h : traverseElements u call seen l v = some (.ok w)) : ∃ w, w ∈ elementsMeaning u m seen l := by
  induction l generalizing seen v with
  | nil => exact ⟨[], rfl⟩
  | cons s l ih =>
    rw [traverseElements] at h
    rw [elementsCallees] at hcall
    obtain ⟨v1, h1, h⟩ := Front.bind_ok h
    exact exists_mem_mul (exists_mem_stmtMeaning (k := ⟨seen, u.place⟩)
      (fun f hf => hcall f (List.mem_append_left _ hf)) h1) (ih (fun f hf => hcall f (List.mem_append_right _ hf)) h)

/-- **Something is read**, if all functions that are called can return. -/
theorem exists_mem_executions (hreturns : ∀ f, Relation.ReflTransGen (Calls u) cfg f → f.Returns) {fuel : ℕ}
    {c : AbstractCfg} {s : IdentifierStore} {r : Inlined} (h : processFunction u fuel cfg c s = some (.ok r)) :
    ∃ w, w ∈ executions u fuel cfg := by
  induction fuel generalizing cfg c s r with
  | zero => simp [processFunction] at h
  | succ fuel ih =>
    refine WordGraph.exists_arrives (G := clangGraph u (executions u fuel) cfg) (hreturns cfg .refl) fun i hi => ?_
    obtain ⟨x, y, hxy⟩ := processFunction_traversed h hi
    refine exists_mem_elementsMeaning (fun f hf => ?_) hxy
    have hcall : Calls u cfg f := ⟨i, hi, hf⟩
    obtain ⟨c', s', r', h'⟩ := processFunction_inserted h hcall
    exact ih (fun g hg => hreturns g (hg.head hcall)) h'

end FrontEnd

end Liss
