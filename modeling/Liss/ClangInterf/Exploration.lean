/-
What the states of a function read.

`process_block` gives each block that it comes to a piece of the CFG. Whatever it adds to a block it has been to is an
edge that leads on from the last state; so the pieces stay, and when it comes back from a block, the edges behind it are
those behind clang's block. The CFG of a function is then made of pieces as clang's CFG is made of blocks.

- `Explores.trans`: one successor after another;
- `Placed.enter`: a new block;
- `processBlock_explores`: the search;
- `processFunction_body`: the CFG of a function reads what the function means.
-/
import Liss.ClangInterf.Statements

namespace Liss

namespace ClangCfg

/-- the blocks that the search comes to -/
def Reachable (cfg : ClangCfg) (i : ℕ) : Prop :=
  Relation.ReflTransGen (fun i j => some j ∈ (cfg.block i).succs) cfg.entry i

/-- the exit can be reached -/
def Returns (cfg : ClangCfg) : Prop := cfg.Reachable cfg.exit

theorem block_mem (cfg : ClangCfg) (i : ℕ) : cfg.block i ∈ cfg.blocks ∨ cfg.block i = {} := by
  unfold block
  by_cases hi : i < cfg.blocks.length
  · rw [List.getD_eq_getElem _ _ hi]
    exact .inl (List.getElem_mem hi)
  · exact .inr (List.getD_eq_default _ _ (not_lt.1 hi))

theorem succ_lt {cfg : ClangCfg} {i j : ℕ} (h : some j ∈ (cfg.block i).succs) :
    j < cfg.blocks.length ∧ j ≠ cfg.entry := by
  rcases cfg.block_mem i with hi | hi
  · exact cfg.succs _ hi j h
  · rw [hi] at h
    simp at h

end ClangCfg

namespace FrontEnd

open AbstractCfg StatementVisitor

/-- a state without action and without a place for a lock -/
def Plain (c : AbstractCfg) (y : ℕ) : Prop := (c.getState y).action = none ∧ (c.getState y).lockable = false

theorem Grows.plain {c d : AbstractCfg} {s t : IdentifierStore} (h : Grows c s d t) {y : ℕ}
    (hy : y < c.states.length) (hplain : Plain c y) : Plain d y :=
  ⟨(h.action y hy).trans hplain.1, h.unlocked y hy hplain.2⟩

variable {c d : AbstractCfg} {s : IdentifierStore} {cfg : ClangCfg} {u : TranslationUnit} {call : Inliner}
  {m : ClangCfg → Language Event}

/-! ## Regions -/

/-- the states of a block -/
structure Region where
  first : ℕ
  last : ℕ
  lo : ℕ
  hi : ℕ

def Region.nodes (r : Region) : Set ℕ := {y | r.lo ≤ y ∧ y < r.hi}

namespace CfgVisitor

def visited (v : CfgVisitor) : Set ℕ := {i | (v.blockMap.lookup i).isSome}

def graph (v : CfgVisitor) : WordGraph ℕ Event := v.thread.graph v.identifierStore

def size (v : CfgVisitor) : ℕ := v.thread.states.length

end CfgVisitor

/-- `R` says where the states of the blocks are that have been visited since there was only `c` -/
structure Placed (u : TranslationUnit) (m : ClangCfg → Language Event) (cfg : ClangCfg) (c : AbstractCfg)
    (s : IdentifierStore) (R : ℕ → Region) (v : CfgVisitor) : Prop where
  grows : Grows c s v.thread v.identifierStore
  first : ∀ i f, v.blockMap.lookup i = some f → f = (R i).first
  piece : ∀ i ∈ v.visited, v.graph.Piece (R i).nodes (R i).first (R i).last
  reads : ∀ i ∈ v.visited, v.graph.arrivals (R i).first (R i).last = (clangGraph u m cfg).label i
  within : ∀ i ∈ v.visited, c.states.length ≤ (R i).lo ∧ (R i).hi ≤ v.size
  disjoint : ∀ i ∈ v.visited, ∀ j ∈ v.visited, ∀ y, y ∈ (R i).nodes → y ∈ (R j).nodes → i = j
  covered : ∀ y, c.states.length ≤ y → y < v.size → ∃ i ∈ v.visited, y ∈ (R i).nodes
  plain : ∀ i ∈ v.visited, (cfg.block i).elements = [] →
    (R i).nodes = {(R i).last} ∧ Plain v.thread (R i).last
  entry : cfg.entry ∈ v.visited → v.entryState = (R cfg.entry).first ∧ (R cfg.entry).first = c.states.length
  unentered : cfg.entry ∉ v.visited → v.entryState = noState
  exit : cfg.exit ∈ v.visited → v.exitState = (R cfg.exit).last

/-- the edges behind a block are those of clang -/
structure Finished (cfg : ClangCfg) (R : ℕ → Region) (v : CfgVisitor) (i : ℕ) : Prop where
  edge : ∀ y, v.thread.HasEdge (R i).last y ↔ ∃ j, some j ∈ (cfg.block i).succs ∧ (R j).first = y
  visited : ∀ j, some j ∈ (cfg.block i).succs → j ∈ v.visited

/-- `w` is `v` after the blocks `T` have been visited from `lastState`, and `R'` the regions then -/
structure Explores (u : TranslationUnit) (m : ClangCfg → Language Event) (cfg : ClangCfg) (c : AbstractCfg)
    (s : IdentifierStore) (R : ℕ → Region) (v : CfgVisitor) (lastState : ℕ) (T : Set ℕ) (R' : ℕ → Region)
    (w : CfgVisitor) : Prop where
  placed : Placed u m cfg c s R' w
  agrees : ∀ i ∈ v.visited, R' i = R i
  kept : ∀ i ∈ v.visited, i ∈ w.visited
  here : ∀ j ∈ T, j ∈ w.visited
  size : v.size ≤ w.size
  old : ∀ x < v.size, ∀ y, w.thread.HasEdge x y ↔
    v.thread.HasEdge x y ∨ lastState ≠ noState ∧ lastState = x ∧ ∃ j ∈ T, (R' j).first = y
  finished : ∀ i ∈ w.visited, i ∉ v.visited → Finished cfg R' w i

variable {R R' R'' : ℕ → Region} {v w x : CfgVisitor} {lastState block b : ℕ} {T T' : Set ℕ}

theorem mem_visited {i : ℕ} : i ∈ v.visited ↔ ∃ f, v.blockMap.lookup i = some f := Option.isSome_iff_exists

theorem Draft.pos (h : Draft c s) : 0 < c.states.length := by
  have hc := h.constructed
  clear h
  induction hc with
  | empty threadId => exact Nat.one_pos
  | addState _ _ _ hadd _ =>
    unfold AbstractCfg.addState at hadd
    split_ifs at hadd
    obtain rfl := Option.some.inj hadd
    simp
  | addDummyState _ hadd _ =>
    unfold AbstractCfg.addDummyState at hadd
    split_ifs at hadd
    obtain rfl := Option.some.inj hadd
    simp
  | addEdge _ _ _ _ _ _ ih => exact ih
  | setFields _ _ _ _ _ _ _ ih =>
    rw [length_states_modifyState]
    exact ih

theorem Placed.pos (hp : Placed u m cfg c s R v) (hd : Draft c s) : 0 < v.size := Nat.lt_of_lt_of_le hd.pos hp.grows.le

/-- states of blocks are proper -/
theorem Placed.node (hp : Placed u m cfg c s R v) (hd : Draft c s) {i y : ℕ} (hi : i ∈ v.visited)
    (hy : y ∈ (R i).nodes) : y ≠ noState ∧ y < v.size := by
  obtain ⟨hlo, hhi⟩ := hp.within i hi
  have hpos := hd.pos
  have hy1 : (R i).lo ≤ y := hy.1
  refine ⟨?_, Nat.lt_of_lt_of_le hy.2 hhi⟩
  simp only [noState]
  omega

theorem Explores.refl (hp : Placed u m cfg c s R v) : Explores u m cfg c s R v lastState ∅ R v := by
  refine ⟨hp, fun _ _ => rfl, fun _ hi => hi, fun _ hj => absurd hj (Set.notMem_empty _), le_refl _, fun x _ y => ?_,
    fun i hi hni => absurd hi hni⟩
  exact (or_iff_left fun ⟨_, _, _, hj, _⟩ => absurd hj (Set.notMem_empty _)).symm

/-- **One after another.** -/
theorem Explores.trans (hd : Draft c s) (hb : b ∈ v.visited) (hlast : lastState = (R b).last)
    (h : Explores u m cfg c s R v lastState T R' w) (h' : Explores u m cfg c s R' w lastState T' R'' x) :
    Explores u m cfg c s R v lastState (T ∪ T') R'' x := by
  refine ⟨h'.placed, fun i hi => (h'.agrees i (h.kept i hi)).trans (h.agrees i hi), fun i hi => h'.kept i (h.kept i hi),
    fun j hj => ?_, h.size.trans h'.size, fun z hz y => ?_, fun i hi hni => ?_⟩
  · rcases hj with hj | hj
    · exact h'.kept j (h.here j hj)
    · exact h'.here j hj
  · rw [h'.old z (Nat.lt_of_lt_of_le hz h.size) y, h.old z hz y, or_assoc]
    refine or_congr_right ?_
    have hfirst : ∀ j ∈ T, (R'' j).first = (R' j).first := fun j hj => by rw [h'.agrees j (h.here j hj)]
    constructor
    · rintro (⟨hne, heq, j, hj, hy⟩ | ⟨hne, heq, j, hj, hy⟩)
      · exact ⟨hne, heq, j, .inl hj, (hfirst j hj).trans hy⟩
      · exact ⟨hne, heq, j, .inr hj, hy⟩
    · rintro ⟨hne, heq, j, hj | hj, hy⟩
      · exact .inl ⟨hne, heq, j, hj, (hfirst j hj).symm.trans hy⟩
      · exact .inr ⟨hne, heq, j, hj, hy⟩
  · by_cases hw : i ∈ w.visited
    · have hfin := h.finished i hw hni
      have hi' := (h.placed.piece i hw).exit
      refine ⟨fun y => ?_, fun j hj => h'.kept j (hfin.visited j hj)⟩
      -- the block that is being visited is not one of the new ones
      have hother : lastState ≠ (R' i).last := by
        intro heq
        have hbw := h.kept b hb
        have hbl := (h.placed.piece b hbw).exit
        rw [h.agrees b hb, ← hlast, heq, ← h.agrees b hb] at hbl
        exact hni (h.placed.disjoint i hw b hbw _ hi' hbl ▸ hb)
      rw [h'.agrees i hw, h'.old _ (h.placed.node hd hw hi').2 y, hfin.edge y]
      refine (or_iff_left fun ⟨_, heq, _⟩ => hother heq).trans ?_
      refine exists_congr fun j => and_congr_right fun hj => ?_
      rw [h'.agrees j (hfin.visited j hj)]
    · exact h'.finished i hi hw

/-! ## A block -/

/-- a new edge from the end of a block leaves the pieces as they are -/
theorem Placed.agree (hp : Placed u m cfg c s R v) (hd : Draft c s)
    (hgrows : Grows v.thread v.identifierStore w.thread w.identifierStore) {next : ℕ}
    (hlast : lastState = noState ∨ ∃ b ∈ v.visited, lastState = (R b).last)
    (hold : ∀ x < v.size, ∀ y, w.thread.HasEdge x y ↔
      v.thread.HasEdge x y ∨ lastState ≠ noState ∧ lastState = x ∧ next = y) {i : ℕ} (hi : i ∈ v.visited) :
    WordGraph.Agree v.graph w.graph (R i).nodes (R i).last := by
  refine ⟨fun y hy => ?_, fun x hx hne y => ?_⟩
  · show ({w.thread.reads w.identifierStore y} : Language Event) = {v.thread.reads v.identifierStore y}
    rw [hgrows.reads hp.grows.draft (hp.node hd hi hy).2]
  · refine (hold x (hp.node hd hi hx).2 y).trans (or_iff_left ?_)
    rintro ⟨hnone, rfl, -⟩
    rcases hlast with hlast | ⟨b, hb, hlast⟩
    · exact hnone hlast
    · rw [hlast] at hx hne
      obtain rfl := hp.disjoint i hi b hb _ hx (hp.piece b hb).exit
      exact hne rfl

/-- the edge to the first state of a block -/
theorem connect_spec (hd : Draft d s) {next : ℕ} (hlast : lastState < d.states.length)
    (hnext : next ≠ noState ∧ next < d.states.length) :
    Grows d s (connect d lastState next) s ∧ (connect d lastState next).states.length = d.states.length ∧
      ∀ x y, (connect d lastState next).HasEdge x y ↔
        d.HasEdge x y ∨ lastState ≠ noState ∧ lastState = x ∧ next = y := by
  unfold connect
  split_ifs with h
  · obtain ⟨hgrows, hedge⟩ := hd.addEdge hlast hnext false
    exact ⟨hgrows, rfl, fun x y => (hedge x y).trans (or_congr_right ⟨fun hxy => ⟨h, hxy⟩, fun hxy => hxy.2⟩)⟩
  · exact ⟨hd.refl, rfl, fun x y => (or_iff_left fun hxy => h hxy.1).symm⟩

/-- **The states of a block**, with one of its own if its statements have none. -/
theorem enterBlock_appended (hd : Draft v.thread v.identifierStore) {sv : StatementVisitor} {l : Language Event}
    {last : ℕ} (h : Adds { thread := v.thread, identifierStore := v.identifierStore } sv l)
    (he : enterBlock block lastState v sv = .ok (w, last)) :
    ∃ r : Inlined, Appended v.thread v.identifierStore r l ∧ last = r.exitState ∧
      w = { v with thread := connect r.thread lastState r.entryState, identifierStore := r.identifierStore,
                   blockMap := (block, r.entryState) :: v.blockMap } ∧
      (sv.progress = false → r.exitState = sv.size ∧ r.thread.states.length = sv.size + 1 ∧
        Plain r.thread r.exitState) := by
  have hready : Ready { thread := v.thread, identifierStore := v.identifierStore } :=
    ⟨hd, hd.pos, Iff.rfl, fun h0 => absurd rfl h0⟩
  unfold enterBlock at he
  rcases h.new with ⟨hsame, rfl⟩ | ⟨first, hext⟩
  · have hprogress : sv.progress = false := by
      unfold StatementVisitor.progress
      rw [hsame.startState]
      rfl
    simp only [hprogress, Bool.false_eq_true, if_false] at he
    cases hadd : sv.thread.addDummyState with
    | none => simp [hadd] at he
    | some thread =>
      simp only [hadd, Except.ok.injEq, Prod.mk.injEq] at he
      obtain ⟨rfl, rfl⟩ := he
      have hstate := h.grows.draft.addDummyState hadd
      have hnew := appended_state h.grows.draft hstate
      have hsize : sv.thread.states.length = v.thread.states.length := hsame.size
      refine ⟨⟨thread, sv.identifierStore, sv.thread.states.length, sv.thread.states.length⟩,
        ⟨h.grows.trans hnew.grows, ?_, hnew.reads, hnew.last, fun x hx y => ?_⟩, rfl, rfl,
        fun _ => ⟨rfl, hstate.size, hstate.action, hstate.unlocked⟩⟩
      · rw [← hsize]
        exact hnew.piece
      · exact (hnew.old x (hsize ▸ hx) y).trans (hsame.edge x y)
  · have hstart : sv.startState = first := hext.start
    have hprogress : sv.progress = true := by
      unfold StatementVisitor.progress
      rw [hstart]
      exact bne_iff_ne.2 (hext.first_ne hready)
    simp only [hprogress, if_true, Except.ok.injEq, Prod.mk.injEq] at he
    obtain ⟨rfl, rfl⟩ := he
    subst hstart
    refine ⟨⟨sv.thread, sv.identifierStore, sv.startState, sv.endState⟩,
      ⟨h.grows, hext.piece, hext.reads, hext.last, fun x hx y => (hext.old x hx y).trans ?_⟩, rfl, rfl, fun h0 => ?_⟩
    · exact or_iff_left fun h0 => h0.1 rfl
    · rw [hprogress] at h0
      exact absurd h0 (by decide)

/-- where `process_block` comes from: from nowhere at first, later from a block -/
def Behind (cfg : ClangCfg) (R : ℕ → Region) (v : CfgVisitor) (lastState block : ℕ) : Prop :=
  (lastState = noState ∧ v.visited = ∅ ∧ block = cfg.entry) ∨
    (cfg.entry ∈ v.visited ∧ ∃ b ∈ v.visited, lastState = (R b).last)

theorem Behind.last (h : Behind cfg R v lastState block) :
    lastState = noState ∨ ∃ b ∈ v.visited, lastState = (R b).last := by
  rcases h with ⟨h, -, -⟩ | ⟨-, h⟩
  · exact .inl h
  · exact .inr h

theorem Behind.lt (h : Behind cfg R v lastState block) (hp : Placed u m cfg c s R v) (hd : Draft c s) :
    lastState < v.size := by
  rcases h.last with rfl | ⟨b, hb, rfl⟩
  · exact hp.pos hd
  · exact (hp.node hd hb (hp.piece b hb).exit).2

/-- `v` after the states `r` of a new block -/
def enter (cfg : ClangCfg) (block lastState : ℕ) (lastNondet : Bool) (r : Inlined) (v : CfgVisitor) : CfgVisitor :=
  markBlock cfg block r.exitState lastNondet
    { v with thread := connect r.thread lastState r.entryState, identifierStore := r.identifierStore,
             blockMap := (block, r.entryState) :: v.blockMap }

theorem markBlock_spec (cfg : ClangCfg) (block last : ℕ) (lastNondet : Bool) (hd : Draft v.thread v.identifierStore) :
    Grows v.thread v.identifierStore (markBlock cfg block last lastNondet v).thread v.identifierStore ∧
      (markBlock cfg block last lastNondet v).graph = v.graph ∧
      (markBlock cfg block last lastNondet v).size = v.size := by
  unfold CfgVisitor.graph CfgVisitor.size markBlock
  dsimp only
  split_ifs
  · obtain ⟨hgrows, hgraph⟩ := hd.refl.modifyState last (f := fun s => { s with nonDet := lastNondet }) (fun _ => rfl)
      (.inr fun _ h => h)
    exact ⟨hgrows, hgraph, length_states_modifyState _ _ _⟩
  · exact ⟨hd.refl, rfl, rfl⟩

theorem visited_cons {first : ℕ} (h : w.blockMap = (block, first) :: v.blockMap) :
    w.visited = insert block v.visited := by
  ext i
  rw [Set.mem_insert_iff, mem_visited, mem_visited, h, List.lookup_cons]
  by_cases hi : i = block
  · simp [hi]
  · have hbeq : (i == block) = false := beq_eq_false_iff_ne.2 hi
    simp [hbeq, hi]

/-- what `enter` does to the CFG -/
structure Enters (v : CfgVisitor) (lastState : ℕ) (r : Inlined) (l : Language Event) (w : CfgVisitor) : Prop where
  grows : Grows v.thread v.identifierStore w.thread w.identifierStore
  plain : ∀ y < r.thread.states.length, Plain r.thread y → Plain w.thread y
  same : w.size = r.thread.states.length
  size : v.size < w.size
  piece : w.graph.Piece {y | v.size ≤ y ∧ y < w.size} r.entryState r.exitState
  reads : w.graph.arrivals r.entryState r.exitState = l
  last : ∀ y, ¬w.thread.HasEdge r.exitState y
  old : ∀ x < v.size, ∀ y, w.thread.HasEdge x y ↔
    v.thread.HasEdge x y ∨ lastState ≠ noState ∧ lastState = x ∧ r.entryState = y

theorem enter_spec (cfg : ClangCfg) (block : ℕ) (lastNondet : Bool) (hd : Draft v.thread v.identifierStore)
    {r : Inlined} {l : Language Event} (hlast : lastState < v.size) (h : Appended v.thread v.identifierStore r l) :
    Enters v lastState r l (enter cfg block lastState lastNondet r v) := by
  have hpos := hd.pos
  have hle := h.grows.le
  have hentry : v.size ≤ r.entryState ∧ r.entryState < r.thread.states.length := h.piece.entry
  have hexit : v.size ≤ r.exitState ∧ r.exitState < r.thread.states.length := h.piece.exit
  have hnext : r.entryState ≠ noState := by
    have hv : v.size = v.thread.states.length := rfl
    simp only [noState]
    omega
  have hlast' : lastState < r.thread.states.length := hlast.trans_le hle
  obtain ⟨hgrows, hsize, hedge⟩ := connect_spec h.grows.draft hlast' ⟨hnext, hentry.2⟩
  set x : CfgVisitor := { v with thread := connect r.thread lastState r.entryState,
                                 identifierStore := r.identifierStore,
                                 blockMap := (block, r.entryState) :: v.blockMap } with hx
  obtain ⟨hgrows', hgraph, hsize'⟩ := markBlock_spec (v := x) cfg block r.exitState lastNondet hgrows.draft
  have hsize : (enter cfg block lastState lastNondet r v).size = r.thread.states.length := hsize'.trans hsize
  have hgraph : (enter cfg block lastState lastNondet r v).graph = x.graph := hgraph
  have hedge : ∀ x' y, (enter cfg block lastState lastNondet r v).thread.HasEdge x' y ↔
      r.thread.HasEdge x' y ∨ lastState ≠ noState ∧ lastState = x' ∧ r.entryState = y := by
    intro x' y
    rw [← hedge x' y]
    exact iff_of_eq (congrFun (congrFun (congrArg WordGraph.edge hgraph) x') y)
  have hagree : WordGraph.Agree (r.thread.graph r.identifierStore) (enter cfg block lastState lastNondet r v).graph
      {y | v.size ≤ y ∧ y < r.thread.states.length} r.exitState := by
    refine ⟨fun y hy => ?_, fun z hz _ y => ?_⟩
    · rw [hgraph]
      show ({AbstractCfg.reads _ _ y} : Language Event) = {r.thread.reads r.identifierStore y}
      rw [hgrows.reads h.grows.draft hy.2]
    · refine (hedge z y).trans (or_iff_left fun hnew => ?_)
      have heq : lastState = z := hnew.2.1
      have hz1 : v.size ≤ z := hz.1
      omega
  refine ⟨(h.grows.trans hgrows).trans hgrows', fun y hy => (hgrows.trans hgrows').plain hy, hsize, by omega, ?_, ?_,
    fun y hy => ?_, fun z hz y => ?_⟩
  · rw [hsize]
    exact h.piece.congr hagree
  · exact (h.piece.arrivals_congr hagree).trans h.reads
  · rcases (hedge r.exitState y).1 hy with hy | ⟨-, heq, -⟩
    · exact h.last y hy
    · omega
  · rw [hedge z y, h.old z hz y]

/-- the regions with that of a new block -/
def enterRegion (R : ℕ → Region) (v : CfgVisitor) (block : ℕ) (r : Inlined) (w : CfgVisitor) : ℕ → Region :=
  Function.update R block ⟨r.entryState, r.exitState, v.size, w.size⟩

/-- what holds of the new block and of those before -/
theorem forall_enterRegion {P : ℕ → Region → Prop} {r : Inlined} (hnew : block ∉ v.visited)
    (hvisited : w.visited = insert block v.visited) (hblock : P block ⟨r.entryState, r.exitState, v.size, w.size⟩)
    (hbefore : ∀ i ∈ v.visited, P i (R i)) : ∀ i ∈ w.visited, P i (enterRegion R v block r w i) := by
  intro i hi
  rw [hvisited] at hi
  rcases hi with rfl | hi
  · rw [enterRegion, Function.update_self]
    exact hblock
  · have hne : i ≠ block := fun heq => hnew (heq ▸ hi)
    rw [enterRegion, Function.update_of_ne hne]
    exact hbefore i hi

/-- nothing has been added before the entry block -/
theorem Placed.size_front (hp : Placed u m cfg c s R v) (hbehind : Behind cfg R v lastState block)
    (hentry : cfg.entry ∉ v.visited) : v.size = c.states.length := by
  rcases hbehind with ⟨-, hempty, -⟩ | ⟨hmem, -⟩
  · by_contra hne
    have hle : c.states.length ≤ v.size := hp.grows.le
    obtain ⟨j, hj, -⟩ := hp.covered c.states.length (le_refl _) (by omega)
    rw [hempty] at hj
    exact hj
  · exact absurd hmem hentry

/-- **A new block.** -/
theorem Placed.enter (lastNondet : Bool) (hd : Draft c s) (hp : Placed u m cfg c s R v)
    (hbehind : Behind cfg R v lastState block) (hnew : block ∉ v.visited) {r : Inlined}
    (hr : Appended v.thread v.identifierStore r ((clangGraph u m cfg).label block))
    (hplain : (cfg.block block).elements = [] →
      r.exitState = v.size ∧ r.thread.states.length = v.size + 1 ∧ Plain r.thread r.exitState) :
    Placed u m cfg c s (enterRegion R v block r (enter cfg block lastState lastNondet r v))
      (enter cfg block lastState lastNondet r v) := by
  have henter := enter_spec cfg block lastNondet hp.grows.draft (hbehind.lt hp hd) hr
  have hvisited := visited_cons (w := FrontEnd.enter cfg block lastState lastNondet r v) (v := v) rfl
  have hmap : (FrontEnd.enter cfg block lastState lastNondet r v).blockMap = (block, r.entryState) :: v.blockMap := rfl
  have hentryState : (FrontEnd.enter cfg block lastState lastNondet r v).entryState =
      if v.entryState = noState then r.exitState else v.entryState := rfl
  have hexitState : (FrontEnd.enter cfg block lastState lastNondet r v).exitState =
      if block = cfg.exit then r.exitState else v.exitState := rfl
  set w := FrontEnd.enter cfg block lastState lastNondet r v with hw
  have hother : ∀ i, i ≠ block → enterRegion R v block r w i = R i := fun i hi => Function.update_of_ne hi _ _
  have hself : enterRegion R v block r w block = ⟨r.entryState, r.exitState, v.size, w.size⟩ := Function.update_self ..
  have hne : ∀ i ∈ v.visited, i ≠ block := fun i hi heq => hnew (heq ▸ hi)
  have hagree := fun i (hi : i ∈ v.visited) => hp.agree hd henter.grows hbehind.last henter.old hi
  have hpos := hd.pos
  have hle : c.states.length ≤ v.size := hp.grows.le
  have hsize := henter.size
  have hpieces := forall_enterRegion (P := fun _ p => w.graph.Piece p.nodes p.first p.last) (r := r) hnew hvisited
    henter.piece fun i hi => (hp.piece i hi).congr (hagree i hi)
  have hreads := forall_enterRegion (P := fun i p => w.graph.arrivals p.first p.last = (clangGraph u m cfg).label i)
    (r := r) hnew hvisited henter.reads fun i hi => ((hp.piece i hi).arrivals_congr (hagree i hi)).trans (hp.reads i hi)
  have hwithin := forall_enterRegion (P := fun _ p => c.states.length ≤ p.lo ∧ p.hi ≤ w.size) (r := r) hnew hvisited
    ⟨hle, le_refl _⟩ fun i hi => ⟨(hp.within i hi).1, (hp.within i hi).2.trans hsize.le⟩
  refine ⟨hp.grows.trans henter.grows, fun i f hf => ?_, hpieces, hreads, hwithin,
    fun i hi j hj y hyi hyj => ?_, fun y hlo hhi => ?_, ?_, fun hi => ?_, fun hi => ?_, fun hi => ?_⟩
  · rw [hmap, List.lookup_cons] at hf
    by_cases hi : i = block
    · subst hi
      rw [hself]
      simpa using hf.symm
    · have hbeq : (i == block) = false := beq_eq_false_iff_ne.2 hi
      rw [hbeq] at hf
      rw [hother i hi]
      exact hp.first i f hf
  · rw [hvisited] at hi hj
    rcases hi with rfl | hi
    · rcases hj with rfl | hj
      · rfl
      · rw [hself] at hyi
        rw [hother j (hne j hj)] at hyj
        exact absurd hyi.1 (not_le.2 (hp.node hd hj hyj).2)
    · rw [hother i (hne i hi)] at hyi
      rcases hj with rfl | hj
      · rw [hself] at hyj
        exact absurd hyj.1 (not_le.2 (hp.node hd hi hyi).2)
      · rw [hother j (hne j hj)] at hyj
        exact hp.disjoint i hi j hj y hyi hyj
  · rw [hvisited]
    by_cases hy : y < v.size
    · obtain ⟨i, hi, hmem⟩ := hp.covered y hlo hy
      exact ⟨i, .inr hi, by rw [hother i (hne i hi)]; exact hmem⟩
    · exact ⟨block, .inl rfl, by rw [hself]; exact ⟨not_lt.1 hy, hhi⟩⟩
  · refine forall_enterRegion (P := fun i p => (cfg.block i).elements = [] → p.nodes = {p.last} ∧ Plain w.thread p.last)
      hnew hvisited (fun hempty => ?_) fun i hi hempty => ?_
    · obtain ⟨hexit, hone, hlast⟩ := hplain hempty
      refine ⟨?_, henter.plain _ hr.piece.exit.2 hlast⟩
      ext y
      show v.size ≤ y ∧ y < w.size ↔ y = r.exitState
      rw [henter.same, hone, hexit]
      omega
    · obtain ⟨hsingle, hlast⟩ := hp.plain i hi hempty
      exact ⟨hsingle, henter.grows.plain (hp.node hd hi (hp.piece i hi).exit).2 hlast⟩
  · rw [hentryState]
    by_cases hv : cfg.entry ∈ v.visited
    · obtain ⟨hfirst, hfront⟩ := hp.entry hv
      have hproper := (hp.node hd hv (hp.piece _ hv).entry).1
      rw [hother _ (hne _ hv), if_neg (hfirst ▸ hproper)]
      exact ⟨hfirst, hfront⟩
    · rw [hvisited] at hi
      obtain hi := hi.resolve_right hv
      obtain ⟨hfront, hone, -⟩ := hplain (hi ▸ cfg.entry_empty)
      have hfirst : v.size ≤ r.entryState ∧ r.entryState < r.thread.states.length := hr.piece.entry
      have hbefore := hp.size_front hbehind hv
      rw [if_pos (hp.unentered hv), hi, hself]
      show r.exitState = r.entryState ∧ r.entryState = c.states.length
      omega
  · rw [hvisited] at hi
    rcases hbehind with ⟨-, -, rfl⟩ | ⟨hv, -⟩
    · exact absurd (.inl rfl) hi
    · exact absurd (.inr hv) hi
  · rw [hexitState]
    by_cases hexit : block = cfg.exit
    · rw [if_pos hexit, ← hexit, hself]
    · rw [hvisited] at hi
      have hv := hi.resolve_left (Ne.symm hexit)
      rw [if_neg hexit, hother _ (Ne.symm hexit)]
      exact hp.exit hv

/-! ## The search -/

/-- **The successors of a block.** -/
theorem processSuccs_explores (hd : Draft c s) {process : ℕ → CfgVisitor → Front CfgVisitor} {l : List (Option ℕ)}
    (hprocess : ∀ j, some j ∈ l → ∀ R v w, Placed u m cfg c s R v → Behind cfg R v lastState j →
      process j v = some (.ok w) → ∃ R', Explores u m cfg c s R v lastState {j} R' w)
    (hp : Placed u m cfg c s R v) (hentry : cfg.entry ∈ v.visited) (hb : b ∈ v.visited)
    (hlast : lastState = (R b).last) (h : processSuccs process l v = some (.ok w)) :
    ∃ R', Explores u m cfg c s R v lastState {j | some j ∈ l} R' w := by
  induction l generalizing R v with
  | nil =>
    obtain rfl := Except.ok.inj (Option.some.inj h)
    have hempty : {j : ℕ | some j ∈ ([] : List (Option ℕ))} = ∅ := by ext; simp
    rw [hempty]
    exact ⟨R, .refl hp⟩
  | cons o l ih =>
    have hrest := fun j (hj : some j ∈ l) => hprocess j (List.mem_cons_of_mem _ hj)
    cases o with
    | none =>
      have hset : {j : ℕ | some j ∈ none :: l} = {j | some j ∈ l} := by ext; simp
      rw [hset]
      exact ih hrest hp hentry hb hlast h
    | some j =>
      rw [processSuccs] at h
      obtain ⟨x, hx, h⟩ := Front.bind_ok h
      obtain ⟨R1, h1⟩ := hprocess j (List.mem_cons_self ..) R v x hp (.inr ⟨hentry, b, hb, hlast⟩) hx
      obtain ⟨R2, h2⟩ := ih hrest h1.placed (h1.kept _ hentry) (h1.kept b hb) (by rw [h1.agrees b hb, hlast]) h
      have hset : {i : ℕ | some i ∈ some j :: l} = {j} ∪ {i | some i ∈ l} := by ext; simp
      rw [hset]
      exact ⟨R2, h1.trans hd hb hlast h2⟩

/-- the calls in a block are replaced by what they mean, and it has no assignments with long left sides -/
structure Readable (u : TranslationUnit) (call : Inliner) (m : ClangCfg → Language Event) (cfg : ClangCfg) (i : ℕ) :
    Prop where
  inlines : ∀ callee ∈ elementsCallees u [] (cfg.block i).elements, Inlines call m callee
  singleSided : singleSidedElements u [] (cfg.block i).elements = true

/-- a block that has been visited gets an edge -/
theorem Placed.revisit (hd : Draft c s) (hp : Placed u m cfg c s R v) (hb : b ∈ v.visited)
    (hlast : lastState = (R b).last) {first : ℕ} (hfirst : v.blockMap.lookup block = some first) (backEdge : Bool) :
    Explores u m cfg c s R v lastState {block} R { v with thread := v.thread.addEdge lastState first backEdge } := by
  have hblock : block ∈ v.visited := mem_visited.2 ⟨first, hfirst⟩
  obtain rfl := hp.first block first hfirst
  have hsrc := hp.node hd hb (hp.piece b hb).exit
  rw [← hlast] at hsrc
  obtain ⟨hgrows, hedge⟩ := hp.grows.draft.addEdge hsrc.2 (hp.node hd hblock (hp.piece block hblock).entry) backEdge
  set w : CfgVisitor := { v with thread := v.thread.addEdge lastState (R block).first backEdge } with hw
  have hold : ∀ x < v.size, ∀ y, w.thread.HasEdge x y ↔
      v.thread.HasEdge x y ∨ lastState ≠ noState ∧ lastState = x ∧ (R block).first = y := by
    intro x _ y
    exact (hedge x y).trans (or_congr_right ⟨fun h => ⟨hsrc.1, h⟩, fun h => h.2⟩)
  have hagree := fun i (hi : i ∈ v.visited) => hp.agree (w := w) hd hgrows (.inr ⟨b, hb, hlast⟩) hold hi
  refine ⟨⟨hp.grows.trans hgrows, hp.first, fun i hi => (hp.piece i hi).congr (hagree i hi), fun i hi => ?_, hp.within,
    hp.disjoint, hp.covered, hp.plain, hp.entry, hp.unentered, hp.exit⟩, fun _ _ => rfl, fun _ hi => hi,
    fun j hj => ?_, le_refl _, fun x hx y => ?_, fun i hi hni => absurd hi hni⟩
  · rw [(hp.piece i hi).arrivals_congr (hagree i hi)]
    exact hp.reads i hi
  · rw [Set.mem_singleton_iff.1 hj]
    exact hblock
  · rw [hold x hx y]
    simp

/-- **The search.** -/
theorem processBlock_explores (hd : Draft c s) (hread : ∀ i, cfg.Reachable i → Readable u call m cfg i) {depth : ℕ}
    {parentBlocks : List ℕ} (hreach : cfg.Reachable block) (hp : Placed u m cfg c s R v)
    (hbehind : Behind cfg R v lastState block)
    (h : processBlock u call cfg depth parentBlocks lastState block v = some (.ok w)) :
    ∃ R', Explores u m cfg c s R v lastState {block} R' w := by
  induction depth generalizing R parentBlocks lastState block v w with
  | zero => simp [processBlock] at h
  | succ depth ih =>
    rw [processBlock] at h
    cases hlookup : v.blockMap.lookup block with
    | some first =>
      simp only [hlookup] at h
      obtain rfl := Except.ok.inj (Option.some.inj h)
      have hblock : block ∈ v.visited := mem_visited.2 ⟨first, hlookup⟩
      rcases hbehind with ⟨-, hempty, -⟩ | ⟨-, b, hb, hlast⟩
      · rw [hempty] at hblock
        exact absurd hblock (Set.notMem_empty _)
      · exact ⟨R, hp.revisit hd hb hlast hlookup _⟩
    | none =>
      have hnew : block ∉ v.visited := fun hmem => by
        obtain ⟨f, hf⟩ := mem_visited.1 hmem
        rw [hlookup] at hf
        simp at hf
      simp only [hlookup] at h
      obtain ⟨sv, hsv, h⟩ := Front.bind_ok h
      obtain ⟨⟨w1, last⟩, hw1, h⟩ := Front.bind_ok h
      obtain ⟨hinlines, hsingle⟩ := hread block hreach
      have hready : Ready { thread := v.thread, identifierStore := v.identifierStore } :=
        ⟨hp.grows.draft, hp.pos hd, Iff.rfl, fun h0 => absurd rfl h0⟩
      obtain ⟨r, hr, rfl, rfl, hprogress⟩ := enterBlock_appended hp.grows.draft
        (traverseElements_adds hinlines hsingle hready hsv) (Option.some.inj hw1)
      have hplain : (cfg.block block).elements = [] →
          r.exitState = v.size ∧ r.thread.states.length = v.size + 1 ∧ Plain r.thread r.exitState := by
        intro hempty
        rw [hempty] at hsv
        obtain rfl := Except.ok.inj (Option.some.inj hsv)
        exact hprogress rfl
      have hplaced := hp.enter sv.lastNondet hd hbehind hnew hr hplain
      have henter := enter_spec cfg block sv.lastNondet hp.grows.draft (hbehind.lt hp hd) hr
      have hvisited := visited_cons (w := enter cfg block lastState sv.lastNondet r v) (v := v) rfl
      change processSuccs _ _ (enter cfg block lastState sv.lastNondet r v) = _ at h
      set w1 := enter cfg block lastState sv.lastNondet r v with hw1
      have hself : enterRegion R v block r w1 block = ⟨r.entryState, r.exitState, v.size, w1.size⟩ :=
        Function.update_self ..
      have hblock : block ∈ w1.visited := hvisited ▸ Set.mem_insert ..
      have hentered : cfg.entry ∈ w1.visited := by
        rw [hvisited]
        rcases hbehind with ⟨-, -, rfl⟩ | ⟨hmem, -⟩
        · exact Set.mem_insert ..
        · exact .inr hmem
      obtain ⟨R', hR'⟩ := processSuccs_explores hd
        (fun j hj R2 v2 w2 hp2 hbehind2 h2 => ih (hreach.tail hj) hp2 hbehind2 h2) hplaced hentered hblock
        (by rw [hself]) h
      have hregion : R' block = ⟨r.entryState, r.exitState, v.size, w1.size⟩ := (hR'.agrees block hblock).trans hself
      have hne : ∀ i ∈ v.visited, i ≠ block := fun i hi heq => hnew (heq ▸ hi)
      have hexit := hplaced.node hd hblock (hplaced.piece block hblock).exit
      rw [hself] at hexit
      have hlo : v.size ≤ r.exitState := hr.piece.exit.1
      refine ⟨R', hR'.placed, fun i hi => ?_, fun i hi => hR'.kept i (hvisited ▸ .inr hi), fun j hj => ?_,
        henter.size.le.trans hR'.size, fun x hx y => ?_, fun i hi hni => ?_⟩
      · rw [hR'.agrees i (hvisited ▸ .inr hi)]
        exact Function.update_of_ne (hne i hi) _ _
      · rw [Set.mem_singleton_iff.1 hj]
        exact hR'.kept block hblock
      · rw [hR'.old x (Nat.lt_trans hx henter.size) y, henter.old x hx y]
        have hlast : ∀ T : ℕ → Prop, ¬(r.exitState ≠ noState ∧ r.exitState = x ∧ ∃ j, T j ∧ (R' j).first = y) :=
          fun T ⟨_, heq, _⟩ => by omega
        refine (or_iff_left (hlast _)).trans (or_congr_right ?_)
        simp only [Set.mem_singleton_iff, exists_eq_left, hregion]
      · by_cases hib : i = block
        · subst hib
          refine ⟨fun y => ?_, fun j hj => hR'.here j hj⟩
          rw [hregion]
          refine (hR'.old _ hexit.2 y).trans ((or_iff_right (henter.last y)).trans ?_)
          exact ⟨fun ⟨_, _, h⟩ => h, fun h => ⟨hexit.1, rfl, h⟩⟩
        · refine hR'.finished i hi fun hmem => ?_
          rw [hvisited] at hmem
          exact hmem.elim hib hni

/-! ## Functions -/

/-- calls in the blocks that are reached, of functions with a body -/
def Calls (u : TranslationUnit) (cfg callee : ClangCfg) : Prop :=
  ∃ i, cfg.Reachable i ∧ callee ∈ elementsCallees u [] (cfg.block i).elements

/-- Every function that is called can return, and the left sides of assignments have one access at most. -/
structure Regular (u : TranslationUnit) (cfg : ClangCfg) : Prop where
  returns : ∀ f, Relation.ReflTransGen (Calls u) cfg f → f.Returns
  singleSided : ∀ f, Relation.ReflTransGen (Calls u) cfg f → ∀ i, f.Reachable i →
    singleSidedElements u [] (f.block i).elements = true

theorem Regular.callee (h : Regular u cfg) {f : ClangCfg} (hf : Calls u cfg f) : Regular u f :=
  ⟨fun g hg => h.returns g (hg.head hf), fun g hg => h.singleSided g (hg.head hf)⟩

/-- it is enough to look at a list of bodies that has all those that its own blocks call -/
theorem regular_of_closed {l : List ClangCfg}
    (hclosed : ∀ f ∈ l, (f.blocks.flatMap fun b => elementsCallees u [] b.elements) ⊆ l)
    (hreturns : ∀ f ∈ l, f.Returns)
    (hsingle : ∀ f ∈ l, (f.blocks.all fun b => singleSidedElements u [] b.elements) = true) {f : ClangCfg}
    (hf : f ∈ l) : Regular u f := by
  have hmem : ∀ g, Relation.ReflTransGen (Calls u) f g → g ∈ l := by
    intro g hg
    induction hg with
    | refl => exact hf
    | @tail g k _ hcall ih =>
      obtain ⟨i, -, hk⟩ := hcall
      rcases g.block_mem i with hb | hb
      · exact hclosed g ih (List.mem_flatMap.2 ⟨_, hb, hk⟩)
      · rw [hb, elementsCallees] at hk
        simp at hk
  refine ⟨fun g hg => hreturns g (hmem g hg), fun g hg i _ => ?_⟩
  rcases g.block_mem i with hb | hb
  · exact List.all_eq_true.1 (hsingle g (hmem g hg)) _ hb
  · rw [hb, singleSidedElements]

theorem placed_start (hd : Draft c s) (R : ℕ → Region) :
    Placed u m cfg c s R { thread := c, identifierStore := s } := by
  have hvisited : CfgVisitor.visited { thread := c, identifierStore := s } = ∅ := by
    ext i
    rw [mem_visited]
    simp
  have hno : ∀ i, i ∉ CfgVisitor.visited { thread := c, identifierStore := s } := fun i hi => by
    rw [hvisited] at hi
    exact absurd hi (Set.notMem_empty i)
  exact ⟨hd.refl, fun i f hf => by simp at hf, fun i hi => absurd hi (hno i), fun i hi => absurd hi (hno i),
    fun i hi => absurd hi (hno i), fun i hi => absurd hi (hno i), fun y hlo hhi => absurd hhi (not_lt.2 hlo),
    fun i hi => absurd hi (hno i), fun hi => absurd hi (hno _), fun _ => rfl, fun hi => absurd hi (hno _)⟩

/-- the states of a function: entry and exit are plain, the entry comes first, and nothing leads to it -/
structure Body (c : AbstractCfg) (s : IdentifierStore) (r : Inlined) (l : Language Event) : Prop
    extends Appended c s r l where
  front : r.entryState = c.states.length
  unentered : ∀ x, ¬r.thread.HasEdge x r.entryState
  apart : r.entryState ≠ r.exitState
  plain : Plain r.thread r.entryState ∧ Plain r.thread r.exitState

/-- blocks behind visited ones are visited -/
theorem visited_of_reachable (hentry : cfg.entry ∈ w.visited) (hfin : ∀ i ∈ w.visited, Finished cfg R w i) {i : ℕ}
    (h : cfg.Reachable i) : i ∈ w.visited := by
  induction h with
  | refl => exact hentry
  | tail _ hj ih => exact (hfin _ ih).visited _ hj

/-- **The blocks of a function.** -/
theorem Placed.body (hd : Draft c s) (hp : Placed u m cfg c s R w) (hentry : cfg.entry ∈ w.visited)
    (hreturns : cfg.Returns) (hfin : ∀ i ∈ w.visited, Finished cfg R w i)
    (hold : ∀ x < c.states.length, ∀ y, w.thread.HasEdge x y ↔ c.HasEdge x y) :
    Body c s ⟨w.thread, w.identifierStore, w.entryState, w.exitState⟩
      ((clangGraph u m cfg).arrivals cfg.entry cfg.exit) := by
  have hexit := visited_of_reachable hentry hfin hreturns
  obtain ⟨hstart, hfront⟩ := hp.entry hentry
  obtain ⟨hsingle, hplain⟩ := hp.plain _ hentry cfg.entry_empty
  have heq : (R cfg.entry).first = (R cfg.entry).last := by
    have hmem := (hp.piece _ hentry).entry
    rwa [hsingle] at hmem
  have hpieces : WordGraph.Pieces w.graph (clangGraph u m cfg) w.visited (fun i => (R i).nodes) (fun i => (R i).first)
      fun i => (R i).last :=
    ⟨hp.piece, hp.disjoint, fun i hi => (hp.reads i hi).symm, fun i hi y => (hfin i hi).edge y,
      fun i hi j hj => (hfin i hi).visited j hj⟩
  have hmem : ∀ i ∈ w.visited, ∀ y ∈ (R i).nodes, c.states.length ≤ y ∧ y < w.thread.states.length :=
    fun i hi y hy => ⟨(hp.within i hi).1.trans hy.1, (hp.node hd hi hy).2⟩
  have hlast : ∀ y, ¬w.thread.HasEdge (R cfg.exit).last y := by
    intro y hy
    obtain ⟨j, hj, -⟩ := ((hfin _ hexit).edge y).1 hy
    rw [show (cfg.block cfg.exit).succs = [] from cfg.exit_empty.2] at hj
    simp at hj
  refine ⟨⟨hp.grows, ⟨?_, ?_, fun x hx hne y he => ?_⟩, ?_, ?_, hold⟩, hstart.trans hfront, fun x hx => ?_,
    fun h => ?_, ?_, ?_⟩
  · rw [hstart]
    exact hmem _ hentry _ (hp.piece _ hentry).entry
  · rw [hp.exit hexit]
    exact hmem _ hexit _ (hp.piece _ hexit).exit
  · obtain ⟨i, hi, hxi⟩ := hp.covered x hx.1 hx.2
    by_cases hxl : x = (R i).last
    · subst hxl
      obtain ⟨j, hj, rfl⟩ := ((hfin i hi).edge y).1 he
      have hjv := (hfin i hi).visited j hj
      exact hmem j hjv _ (hp.piece j hjv).entry
    · exact hmem i hi y ((hp.piece i hi).closed x hxi hxl y he)
  · show w.graph.arrivals w.entryState w.exitState = _
    rw [hstart, hp.exit hexit]
    exact hpieces.arrivals hentry hexit
  · rw [hp.exit hexit]
    exact hlast
  · change w.thread.HasEdge x w.entryState at hx
    rw [hstart] at hx
    have hentryNode := (hp.piece _ hentry).entry
    by_cases hxc : x < c.states.length
    · have hlt := (hd.hasEdge_lt ((hold x hxc _).1 hx)).2.1
      omega
    · obtain ⟨i, hi, hxi⟩ := hp.covered x (not_lt.1 hxc) (hp.grows.draft.hasEdge_lt hx).1
      by_cases hxl : x = (R i).last
      · subst hxl
        obtain ⟨j, hj, hfirst⟩ := ((hfin i hi).edge _).1 hx
        have hjv := (hfin i hi).visited j hj
        rw [← hfirst] at hentryNode
        exact (ClangCfg.succ_lt hj).2 (hp.disjoint j hjv _ hentry _ (hp.piece j hjv).entry hentryNode)
      · obtain rfl := hp.disjoint i hi _ hentry _ ((hp.piece i hi).closed x hxi hxl _ hx) hentryNode
        rw [hsingle] at hxi
        exact hxl hxi
  · have hentryNode := (hp.piece _ hentry).entry
    rw [← hstart, show w.entryState = w.exitState from h, hp.exit hexit] at hentryNode
    exact cfg.entry_ne_exit (hp.disjoint _ hentry _ hexit _ hentryNode (hp.piece _ hexit).exit)
  · show Plain w.thread w.entryState
    rw [hstart, heq]
    exact hplain
  · show Plain w.thread w.exitState
    rw [hp.exit hexit]
    exact (hp.plain _ hexit cfg.exit_empty.1).2

/-- **A function**, with calls of any depth that is large enough. -/
theorem processFunction_executions (hregular : Regular u cfg) {fuel n : ℕ} (hn : fuel ≤ n) (hd : Draft c s)
    {r : Inlined} (h : processFunction u fuel cfg c s = some (.ok r)) : Body c s r (executions u n cfg) := by
  induction fuel generalizing cfg c s r n with
  | zero => simp [processFunction] at h
  | succ fuel ih =>
    obtain ⟨n, rfl⟩ : ∃ k, n = k + 1 := ⟨n - 1, by omega⟩
    rw [processFunction] at h
    obtain ⟨w, hw, h⟩ := Front.bind_ok h
    obtain rfl := Except.ok.inj (Option.some.inj h)
    have hread : ∀ i, cfg.Reachable i → Readable u (processFunction u fuel) (executions u n) cfg i := by
      refine fun i hi => ⟨fun callee hcallee => ?_, hregular.singleSided cfg .refl i hi⟩
      exact fun _ _ _ hd' h' => (ih (hregular.callee ⟨i, hi, hcallee⟩) (by omega) hd' h').toAppended
    have hvisited : CfgVisitor.visited { thread := c, identifierStore := s } = ∅ := by
      ext i
      rw [mem_visited]
      simp
    obtain ⟨R, hR⟩ := processBlock_explores hd hread .refl (placed_start hd fun _ => ⟨0, 0, 0, 0⟩)
      (.inl ⟨rfl, hvisited, rfl⟩) hw
    refine hR.placed.body hd (hR.here _ rfl) (hregular.returns cfg .refl)
      (fun i hi => hR.finished i hi fun hmem => ?_) fun x hx y => ?_
    · rw [hvisited] at hmem
      exact hmem
    · exact (hR.old x hx y).trans (or_iff_left fun h0 => h0.1 rfl)

/-- what there is to be read is there at the depth that the search got to -/
theorem executions_eq_meaning {n : ℕ} (h : ∀ k, n ≤ k → executions u k cfg = executions u n cfg) :
    executions u n cfg = meaning u cfg := by
  ext w
  refine ⟨fun hw => ⟨n, hw⟩, fun hw => ?_⟩
  obtain ⟨k, hk⟩ := hw
  rw [← h (max n k) (le_max_left ..)]
  exact executions_mono (le_max_right ..) cfg w hk

/-- **A function.** -/
theorem processFunction_body (hregular : Regular u cfg) {fuel : ℕ} (hd : Draft c s) {r : Inlined}
    (h : processFunction u fuel cfg c s = some (.ok r)) : Body c s r (meaning u cfg) := by
  have hexec := processFunction_executions hregular (le_refl fuel) hd h
  rw [executions_eq_meaning fun k hk => ?_] at hexec
  · exact hexec
  · exact (processFunction_executions hregular hk hd h).reads.symm.trans hexec.reads

end FrontEnd

end Liss
