/-
The actions of the states that a traversal adds.

Each reference to a global variable becomes a state whose action is a read or a write of it, in the order in which the
visitor meets them. It is a write exactly if the visitor is a writer or the reference stands in the left side of an
assignment. Later states, links and places for locks leave an action alone, and a later name leaves the number of an
earlier one alone.

- `accesses`: what is accessed in an expression, one entry for each state;
- `Emitted`: the new states are those accesses, with the rules for one traversal after another;
- `traverseStmt_emitted`: a traversal emits the accesses of the expression.
-/
import Liss.ClangInterf.Chains

namespace Liss

/-- an access to a global variable -/
structure Access where
  name : String
  write : Bool
deriving DecidableEq, Repr

def Access.operation (a : Access) : OpClass := if a.write then .write else .read

namespace StatementVisitor

open AbstractCfg

variable {u v w : StatementVisitor} {k : VisitContext}

/-- the access of a reference -/
def accessOf (writer : Bool) : Decl → List (Option Access)
  | .var name isParm isLocal _ =>
    if isParm || isLocal then [] else if name = "nondet" then [] else [some ⟨name, writer⟩]
  | .other => []

mutual

/-- what is accessed in an expression; `none` is the state of an artificial node -/
def accesses (k : VisitContext) (writer : Bool) (e : Expr) : List (Option Access) :=
  if e.id ∈ k.seenStmt then []
  else match e with
    | .artificial _ => [none]
    | .declRefExpr _ decl => accessOf writer decl
    | .binAssign _ lhs rhs => accesses k writer rhs ++ accesses k true lhs
    | .other _ children => accessesAll k writer children

def accessesAll (k : VisitContext) (writer : Bool) (es : List Expr) : List (Option Access) :=
  match es with
  | [] => []
  | e :: es => accesses k writer e ++ accessesAll k writer es

end

/-! ## States and their actions -/

/-- `get_state(y).action` -/
def action (v : StatementVisitor) (y : ℕ) : Option Symbol := (v.thread.getState y).action

/-- the name of a variable -/
def nameOf (v : StatementVisitor) (var : ℕ) : Option String := v.identifierStore.variableNames.names[var]?

/-- the action is that of the access -/
def Performs (v : StatementVisitor) (action : Option Symbol) : Option Access → Prop
  | none => action = none
  | some a => ∃ s, action = some s ∧ s.operation = a.operation ∧ v.nameOf s.var = some a.name

/-- the new states of `w` are the accesses `l` -/
structure Emitted (v w : StatementVisitor) (l : List (Option Access)) : Prop where
  consistent : w.identifierStore.Consistent
  named : ∀ var name, v.nameOf var = some name → w.nameOf var = some name
  size : w.size = v.size + l.length
  kept : ∀ y, y < v.size → w.action y = v.action y
  performs : ∀ i a, l[i]? = some a → w.Performs (w.action (v.size + i)) a

theorem Performs.mono (h : ∀ var name, v.nameOf var = some name → w.nameOf var = some name) {s : Option Symbol}
    {a : Option Access} (hp : v.Performs s a) : w.Performs s a := by
  cases a with
  | none => exact hp
  | some a =>
    obtain ⟨sy, hs, hop, hname⟩ := hp
    exact ⟨sy, hs, hop, h _ _ hname⟩

theorem Emitted.refl (hs : v.identifierStore.Consistent) : Emitted v v [] :=
  ⟨hs, fun _ _ h => h, rfl, fun _ _ => rfl, fun i a h => by simp at h⟩

/-- **One after another.** -/
theorem Emitted.trans {l l' : List (Option Access)} (h : Emitted v u l) (h' : Emitted u w l') :
    Emitted v w (l ++ l') := by
  have hsize := h.size
  refine ⟨h'.consistent, fun var name hn => h'.named var name (h.named var name hn), ?_, fun y hy => ?_,
    fun i a hi => ?_⟩
  · rw [h'.size, h.size, List.length_append, Nat.add_assoc]
  · exact (h'.kept y (by omega)).trans (h.kept y hy)
  · rcases Nat.lt_or_ge i l.length with hlt | hge
    · rw [List.getElem?_append_left hlt] at hi
      rw [h'.kept _ (by omega)]
      exact (h.performs i a hi).mono h'.named
    · rw [List.getElem?_append_right hge] at hi
      have hp := h'.performs _ a hi
      rwa [show u.size + (i - l.length) = v.size + i by omega] at hp

/-- a visitor with the same states and the same names -/
structure Alike (v w : StatementVisitor) : Prop where
  store : w.identifierStore = v.identifierStore
  size : w.size = v.size
  action : ∀ y, w.action y = v.action y

theorem Alike.nameOf (h : Alike v w) (var : ℕ) : w.nameOf var = v.nameOf var := by
  unfold StatementVisitor.nameOf
  rw [h.store]

theorem Emitted.congr {v' w' : StatementVisitor} {l : List (Option Access)} (h : Emitted v w l) (hv : Alike v v')
    (hw : Alike w w') : Emitted v' w' l := by
  refine ⟨hw.store ▸ h.consistent, fun var name hn => ?_, ?_, fun y hy => ?_, fun i a hi => ?_⟩
  · rw [hw.nameOf]
    exact h.named var name ((hv.nameOf var) ▸ hn)
  · rw [hw.size, hv.size, h.size]
  · rw [hw.action, hv.action]
    exact h.kept y (hv.size ▸ hy)
  · rw [hw.action, hv.size]
    exact (h.performs i a hi).mono fun var name hn => (hw.nameOf var).trans hn

/-! ## One state -/

theorem action_modifyState (c : AbstractCfg) (id : ℕ) {f : State → State} (hf : ∀ s, (f s).action = s.action) (y : ℕ) :
    ((c.modifyState id f).getState y).action = (c.getState y).action := by
  rw [getState, modifyState, List.getD_eq_getElem?_getD, List.getElem?_modify, getState, List.getD_eq_getElem?_getD]
  cases c.states[y]? with
  | none => rfl
  | some s =>
    by_cases hid : id = y
    · simp [hid, hf]
    · simp [hid]

theorem action_joinLocks (prev next : ℕ) (c : AbstractCfg) (y : ℕ) :
    ((joinLocks prev next c).getState y).action = (c.getState y).action := by
  unfold joinLocks
  split_ifs
  · rw [action_modifyState, action_modifyState]
    · exact fun _ => rfl
    · exact fun _ => rfl
  · rfl

/-- links do not change actions -/
theorem alike_addSuccessor (v : StatementVisitor) (next : ℕ) : Alike v (v.addSuccessor next) := by
  unfold addSuccessor
  split_ifs
  · refine ⟨rfl, ?_, fun y => ?_⟩
    · exact length_joinLocks _ _ _
    · exact action_joinLocks _ _ _ y
  · exact ⟨rfl, rfl, fun _ => rfl⟩

/-- nor do places for locks -/
theorem alike_lockLocations (k : VisitContext) (id stateId : ℕ) (v : StatementVisitor) :
    Alike v (lockLocations k id stateId v) :=
  ⟨rfl, length_states_modifyState _ _ _, action_modifyState _ _ fun _ => rfl⟩

/-- the state that has been added -/
theorem getState_concat {c : AbstractCfg} {s : State} {es : List (List Edge)} (y : ℕ) :
    ({ c with states := c.states ++ [s], edges := es } : AbstractCfg).getState y =
      if y = c.states.length then s else c.getState y := by
  unfold getState
  rw [List.getD_eq_getElem?_getD, List.getD_eq_getElem?_getD, List.getElem?_append]
  split_ifs with hlt heq heq
  · omega
  · rfl
  · rw [heq, Nat.sub_self, List.getElem?_cons_zero, Option.getD_some]
  · rw [List.getElem?_eq_none (not_lt.1 hlt), List.getElem?_eq_none (by simp; omega)]

/-- `c` is the thread of `v` with one state more, whose action is `a` -/
structure Added (v : StatementVisitor) (c : AbstractCfg) (a : Option Symbol) : Prop where
  size : c.states.length = v.size + 1
  action : ∀ y, (c.getState y).action = if y = v.size then a else v.action y

theorem added_addState {symbol : Symbol} {c : AbstractCfg} (h : v.thread.addState symbol = some c) :
    Added v c (some { symbol with loc := ⟨v.thread.threadId, v.size⟩ }) := by
  unfold AbstractCfg.addState at h
  split_ifs at h
  obtain rfl := Option.some.inj h
  refine ⟨by simp [StatementVisitor.size], fun y => ?_⟩
  rw [getState_concat]
  unfold StatementVisitor.size
  split_ifs
  · rfl
  · rfl

theorem added_addDummyState {c : AbstractCfg} (h : v.thread.addDummyState = some c) : Added v c none := by
  unfold AbstractCfg.addDummyState at h
  split_ifs at h
  obtain rfl := Option.some.inj h
  refine ⟨by simp [StatementVisitor.size], fun y => ?_⟩
  rw [getState_concat]
  unfold StatementVisitor.size
  split_ifs
  · rfl
  · rfl

/-- **One state.** -/
theorem addState_emitted (hs : v.identifierStore.Consistent) {id : ℕ} {added : Option AbstractCfg} {s : Option Symbol}
    {a : Option Access} (hadded : ∀ c, added = some c → Added v c s) (ha : v.Performs s a)
    (h : addState k id v added = .ok w) : Emitted v w [a] := by
  unfold addState at h
  cases added with
  | none => simp at h
  | some c =>
    obtain rfl := Except.ok.inj h
    obtain ⟨hsize, haction⟩ := hadded c rfl
    have hthread : Emitted v { v with thread := c } [a] := by
      refine ⟨hs, fun _ _ h => h, hsize, fun y hy => ?_, fun i b hi => ?_⟩
      · exact (haction y).trans (if_neg (Nat.ne_of_lt hy))
      · obtain ⟨hlt, rfl⟩ := List.getElem?_eq_some_iff.1 hi
        obtain rfl : i = 0 := Nat.lt_one_iff.1 hlt
        have hnew : StatementVisitor.action { v with thread := c } (v.size + 0) = s := (haction v.size).trans (if_pos rfl)
        rw [hnew]
        exact ha
    refine (hthread.congr ⟨rfl, rfl, fun _ => rfl⟩ (alike_lockLocations k id v.size _)).congr ⟨rfl, rfl, fun _ => rfl⟩ ?_
    exact alike_addSuccessor _ _

/-! ## References -/

/-- the number that a variable gets has its name, and those before keep theirs -/
theorem insertVariable_named {s s' : IdentifierStore} (hs : s.Consistent) {name : String} {var : ℕ}
    (h : s.insertVariable name = .ok (var, s')) : s'.Consistent ∧ s'.variableNames.names[var]? = some name ∧
      ∀ (id : ℕ) (x : String), s.variableNames.names[id]? = some x → s'.variableNames.names[id]? = some x := by
  have hins : s.insert ⟨.var, name⟩ = .ok (var, s') := h
  have hfull : ¬s.Full .var := by
    intro hfull
    have herror := IdentifierStore.insert_full (i := ⟨.var, name⟩) hfull
    rw [hins] at herror
    cases herror
  have hafter : s.after ⟨.var, name⟩ = s' := by rw [IdentifierStore.after, hins]
  obtain ⟨hname, hkept⟩ := (IdentifierStore.stable_of_room hs hfull).named var s' hins
  exact ⟨hafter ▸ IdentifierStore.consistent_after hs _, hname, fun id x hid => hkept .var x id hid⟩

/-- **References.** -/
theorem visitDeclRefExpr_emitted (hs : v.identifierStore.Consistent) {writer : Bool} {id : ℕ} {decl : Decl}
    (h : visitDeclRefExpr k writer id decl v = .ok w) : Emitted v w (accessOf writer decl) := by
  unfold visitDeclRefExpr at h
  cases decl with
  | other =>
    obtain rfl := Except.ok.inj h
    exact .refl hs
  | var name isParm isLocal typeName =>
    dsimp only at h
    dsimp only [accessOf]
    by_cases h1 : (isParm || isLocal) = true
    · rw [if_pos h1] at h
      rw [if_pos h1]
      obtain rfl := Except.ok.inj h
      exact .refl hs
    rw [if_neg h1] at h
    rw [if_neg h1]
    by_cases h2 : name = "nondet"
    · rw [if_pos h2] at h
      rw [if_pos h2]
      obtain rfl := Except.ok.inj h
      exact (Emitted.refl hs).congr ⟨rfl, rfl, fun _ => rfl⟩ ⟨rfl, rfl, fun _ => rfl⟩
    rw [if_neg h2] at h
    rw [if_neg h2]
    by_cases h3 : typeName = "lock_t" ∨ typeName = "conditional_t"
    · rw [if_pos h3] at h
      simp at h
    rw [if_neg h3] at h
    obtain ⟨⟨var, store⟩, hins, h⟩ := bind_ok h
    obtain ⟨hs', hname, hkept⟩ := insertVariable_named hs hins
    have hstore : Emitted v { v with identifierStore := store } [] :=
      ⟨hs', hkept, rfl, fun _ _ => rfl, fun i a hi => by simp at hi⟩
    refine hstore.trans (addState_emitted hs' (fun c hc => added_addState hc) ?_ h)
    exact ⟨_, rfl, rfl, hname⟩

/-! ## The traversal -/

/-- **The left side of an assignment.** -/
theorem joinInner_emitted {l : List (Option Access)} (h : Emitted v.inner u l) : Emitted v (v.joinInner u) l := by
  set b : StatementVisitor := { v with thread := u.thread, identifierStore := u.identifierStore } with hb
  have hbase : Emitted v b l := h.congr ⟨rfl, rfl, fun _ => rfl⟩ ⟨rfl, rfl, fun _ => rfl⟩
  unfold joinInner
  dsimp only
  rw [← hb]
  split_ifs
  · exact hbase.congr ⟨rfl, rfl, fun _ => rfl⟩ (alike_addSuccessor _ _)
  · exact hbase

theorem accesses_seen {writer : Bool} {e : Expr} (h : e.id ∈ k.seenStmt) : accesses k writer e = [] := by
  cases e with
  | declRefExpr => rw [accesses, if_pos h]
  | binAssign => rw [accesses, if_pos h]
  | artificial => rw [accesses, if_pos h]
  | other => rw [accesses, if_pos h]

mutual

/-- **A traversal.** By induction on the expression. -/
theorem traverseStmt_emitted {v w : StatementVisitor} (hs : v.identifierStore.Consistent) {writer : Bool} {e : Expr}
    (h : traverseStmt k writer e v = .ok w) : Emitted v w (accesses k writer e) := by
  suffices Emitted { v with lastNondet := false } w (accesses k writer e) from
    this.congr ⟨rfl, rfl, fun _ => rfl⟩ ⟨rfl, rfl, fun _ => rfl⟩
  by_cases hseen : e.id ∈ k.seenStmt
  · rw [traverseStmt_seen hseen] at h
    obtain rfl := Except.ok.inj h
    rw [accesses_seen hseen]
    exact .refl hs
  · match e with
    | .artificial id =>
      rw [traverseStmt_artificial hseen] at h
      rw [accesses, if_neg hseen]
      exact addState_emitted (v := { v with lastNondet := false }) hs (fun c hc => added_addDummyState hc) rfl h
    | .declRefExpr id decl =>
      rw [traverseStmt_declRefExpr hseen] at h
      rw [accesses, if_neg hseen]
      exact visitDeclRefExpr_emitted (v := { v with lastNondet := false }) hs h
    | .binAssign id lhs rhs =>
      rw [traverseStmt_binAssign hseen] at h
      rw [accesses, if_neg hseen]
      obtain ⟨u, x, hu, hx, rfl⟩ := traverseBinAssign_ok h
      have h1 := traverseStmt_emitted (v := { v with lastNondet := false }) hs hu
      exact h1.trans (joinInner_emitted (traverseStmt_emitted (v := u.inner) h1.consistent hx))
    | .other id children =>
      rw [traverseStmt_other hseen] at h
      rw [accesses, if_neg hseen]
      exact traverseChildren_emitted (v := { v with lastNondet := false }) hs h

theorem traverseChildren_emitted {v w : StatementVisitor} (hs : v.identifierStore.Consistent) {writer : Bool}
    {es : List Expr} (h : traverseChildren k writer es v = .ok w) : Emitted v w (accessesAll k writer es) := by
  match es with
  | [] =>
    rw [traverseChildren] at h
    obtain rfl := Except.ok.inj h
    exact .refl hs
  | e :: es =>
    rw [traverseChildren] at h
    obtain ⟨u, hu, hw⟩ := bind_ok h
    have h1 := traverseStmt_emitted hs hu
    exact h1.trans (traverseChildren_emitted h1.consistent hw)

end

/-! ## Emitted symbols -/

/-- a new state has an action of this kind on the variable -/
def Emits (v w : StatementVisitor) (operation : OpClass) (name : String) : Prop :=
  ∃ y s, v.size ≤ y ∧ y < w.size ∧ w.action y = some s ∧ s.operation = operation ∧ w.nameOf s.var = some name

theorem Access.operation_injective {a b : Access} (h : a.operation = b.operation) : a.write = b.write := by
  unfold Access.operation at h
  cases ha : a.write <;> cases hb : b.write <;> simp_all

/-- the emitted symbols are the accesses -/
theorem Emitted.emits_iff {l : List (Option Access)} (h : Emitted v w l) (a : Access) :
    Emits v w a.operation a.name ↔ some a ∈ l := by
  have hsize := h.size
  constructor
  · intro he
    obtain ⟨y, s, hle, hlt, hs, hop, hname⟩ := he
    have hlt' : y - v.size < l.length := by omega
    obtain ⟨access, hi⟩ : ∃ access, l[y - v.size]? = some access := ⟨_, List.getElem?_eq_getElem hlt'⟩
    have hp := h.performs _ _ hi
    rw [Nat.add_sub_cancel' hle, hs] at hp
    cases access with
    | none => cases hp
    | some b =>
      obtain ⟨s', hs', hop', hname'⟩ := hp
      obtain rfl := Option.some.inj hs'
      have hwrite : a.write = b.write := Access.operation_injective (hop.symm.trans hop')
      have hsame : a.name = b.name := Option.some.inj (hname.symm.trans hname')
      obtain ⟨name, write⟩ := a
      obtain ⟨name', write'⟩ := b
      obtain rfl : write = write' := hwrite
      obtain rfl : name = name' := hsame
      exact List.mem_of_getElem? hi
  · intro ha
    obtain ⟨i, hi⟩ := List.mem_iff_getElem?.1 ha
    have hlt := (List.getElem?_eq_some_iff.1 hi).1
    obtain ⟨s, hs, hop, hname⟩ := h.performs i _ hi
    exact ⟨v.size + i, s, Nat.le_add_right _ _, by omega, hs, hop, hname⟩

end StatementVisitor

end Liss
