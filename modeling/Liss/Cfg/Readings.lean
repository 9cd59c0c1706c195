/-
What a CFG reads, and that `minimise` and `compact` leave it.

An event is a read or a write of a global variable or an operation on a lock or a conditional, by name; the names are
those that the `identifier_store` has for the numbers. A CFG reads the events on its paths from state 1 to a final
state.

- `executions_minimise`: the removed states read nothing;
- `executions_compact`: the copy reads the same, if no state is lost.
-/
import Liss.Abstraction.IdentifierStore
import Liss.Cfg.Threads
import Liss.Lib.WordGraph

namespace Liss

structure Event where
  operation : OpClass
  /-- `variable_name` -/
  name : Option String
  assume : Bool := false
  synthesised : Bool := false
deriving DecidableEq, Repr

/-- the kind of names that an operation takes -/
def OpClass.category : OpClass → Option IdentifierStore.Category
  | .read | .write => some .var
  | .lock | .unlock => some .lock
  | .wait | .waitNot | .notify | .reset | .waitReset => some .conditional
  | .yield | .epsilon | .tag => none

/-- the name behind the number of a symbol; `yield` has the empty one -/
def IdentifierStore.nameOf (s : IdentifierStore) (a : Symbol) : Option String :=
  match a.operation.category with
  | none => some ""
  | some category => (s.table category).names[a.var]?

def IdentifierStore.event (s : IdentifierStore) (a : Symbol) : Event :=
  ⟨a.operation, s.nameOf a, a.assume, a.synthesised⟩

namespace AbstractCfg

/-- what is read at a state -/
def reads (c : AbstractCfg) (s : IdentifierStore) (y : ℕ) : List Event := ((c.getState y).action.map s.event).toList

def graph (c : AbstractCfg) (s : IdentifierStore) : WordGraph ℕ Event where
  edge := c.HasEdge
  label y := {c.reads s y}

/-- the events on the paths from state 1 to where a final state is first reached -/
def executions (c : AbstractCfg) (s : IdentifierStore) : Language Event :=
  {w | ∃ y, (c.getState y).final = true ∧ (c.graph s).Arrives y 1 w}

/-- what is read is read at a state -/
theorem mem_executions {c : AbstractCfg} {s : IdentifierStore} {w : List Event} (h : w ∈ c.executions s) {x : Event}
    (hx : x ∈ w) : ∃ y, x ∈ c.reads s y := by
  obtain ⟨b, -, harr⟩ := h
  generalize 1 = u at harr
  induction harr with
  | here hw =>
    obtain rfl := Set.mem_singleton_iff.1 hw
    exact ⟨_, hx⟩
  | step _ hl _ _ ih =>
    obtain rfl := Set.mem_singleton_iff.1 hl
    exact (List.mem_append.1 hx).elim (fun h => ⟨_, h⟩) ih

variable {c m k : AbstractCfg} {s : IdentifierStore} {fuel : ℕ} {leaveLockables : Bool}

theorem reads_congr {y y' : ℕ} (h : (m.getState y').action.map s.event = (c.getState y).action.map s.event) :
    m.reads s y' = c.reads s y := by
  rw [reads, reads, h]

/-- the actions have names -/
def Named (c : AbstractCfg) (s : IdentifierStore) : Prop :=
  ∀ y a, (c.getState y).action = some a → s.nameOf a ≠ none

/-- new names change nothing -/
theorem executions_of_names {t : IdentifierStore} (hnamed : c.Named s)
    (hnames : ∀ a, s.nameOf a ≠ none → t.nameOf a = s.nameOf a) : c.executions t = c.executions s := by
  have hreads : ∀ y, c.reads t y = c.reads s y := by
    intro y
    rw [reads, reads]
    cases ha : (c.getState y).action with
    | none => rfl
    | some a => simp [IdentifierStore.event, hnames a (hnamed y a ha)]
  have hgraph : c.graph t = c.graph s := by
    unfold graph
    simp only [hreads]
  rw [executions, executions, hgraph]

/-- a word is read on the way to a reached state -/
theorem reached_of_arrives {u y : ℕ} {w : List Event} (h : (c.graph s).Arrives y u w) (hu : u ∈ c.Reached) :
    y ∈ c.Reached := by
  induction h with
  | here => exact hu
  | step _ _ he _ ih => exact ih (Relation.ReflTransGen.tail hu he)

/-- the edges of `minimise` are the links, also when the passes have been run before -/
theorem hasEdge_minimise_framed (hc : c.Framed)
    (hdirect : ∀ u, u ≠ noState → ∀ e ∈ c.getSuccessors u, e.inBetweeners = [])
    (h : c.minimise leaveLockables fuel = some m) {u : ℕ} (hu : u ∈ m.Reached) (v : ℕ) :
    m.HasEdge u v ↔ c.Contracted leaveLockables u v := by
  obtain ⟨c1, c2, -, -, hedge, -, hvisited⟩ := minimise_loops h
  have hv := hvisited u hu
  have hu0 := (hc.minimise h).reached hu
  refine ⟨fun huv => ?_, fun hcontracted => ?_⟩
  · obtain ⟨e, he, rfl⟩ := huv
    obtain ⟨e1, he1, hd⟩ := (hedge u e.dst).1 ⟨e, he, rfl⟩
    exact ⟨hd ▸ hv.kept e1 he1, e.inBetweeners, minimise_links hc.target hdirect h hu0 he⟩
  · obtain ⟨hk, ds, hl⟩ := hcontracted
    exact (hedge u v).2 (hv.complete ds v hl hk)

/-- **`minimise`.** -/
theorem executions_minimise (hc : c.Framed)
    (hdirect : ∀ u, u ≠ noState → ∀ e ∈ c.getSuccessors u, e.inBetweeners = [])
    (h : c.minimise leaveLockables fuel = some m) : m.executions s = c.executions s := by
  have haction : ∀ y, (m.getState y).action = (c.getState y).action := fun y => (minimise_fields h y).1
  have hfinal : ∀ y, (m.getState y).final = (c.getState y).final := fun y => (minimise_fields h y).2
  have hlabel : ∀ y, (m.graph s).label y = (c.graph s).label y := fun y => by
    have hreads : m.reads s y = c.reads s y := reads_congr (by rw [haction])
    exact congrArg (fun w => ({w} : Language Event)) hreads
  have hremoved : ∀ y, c.kept leaveLockables y = false → (c.graph s).label y = 1 := fun y hy => by
    have hnone : (c.getState y).action = none := by
      unfold kept at hy
      simp only [Bool.or_eq_false_iff] at hy
      simpa using hy.1.1
    show ({c.reads s y} : Language Event) = 1
    rw [reads, hnone]
    rfl
  ext w
  refine exists_congr fun y => ?_
  rw [hfinal y]
  refine and_congr_right fun hy => ?_
  have hkept : c.kept leaveLockables y = true := by simp [kept, hy]
  have heq := WordGraph.arrivals_contract (G := c.graph s) (H := m.graph s) (a := 1) (S := (· ∈ m.Reached))
    (fun u _ => hlabel u) hremoved hkept (fun u v hu => hasEdge_minimise_framed hc hdirect h hu v)
    (fun u v hu huv => Relation.ReflTransGen.tail hu huv) Relation.ReflTransGen.refl
  exact Set.ext_iff.1 heq w

/-- **A copy.** -/
theorem executions_renumbered {f : ℕ → ℕ} (hf : Renumbered m k m.Reached f) (he : EdgesRenumbered m k m.Reached f) :
    k.executions s = m.executions s := by
  have hstate := hf.state
  have haction : ∀ u ∈ m.Reached, (k.getState (f u)).action.map s.event = (m.getState u).action.map s.event := by
    intro u hu
    have hs := hstate u hu
    simp only [State.mk.injEq] at hs
    rw [hs.1]
    exact Option.map_map _ _ _
  have hfinal : ∀ u ∈ m.Reached, (k.getState (f u)).final = (m.getState u).final := by
    intro u hu
    have hs := hstate u hu
    simp only [State.mk.injEq] at hs
    exact hs.2.2.1
  have hedge : ∀ u ∈ m.Reached, ∀ v, k.HasEdge (f u) v ↔ ∃ j, m.HasEdge u j ∧ f j = v := by
    intro u hu v
    unfold HasEdge
    rw [he u hu]
    refine ⟨fun hcopied => ?_, fun hold => ?_⟩
    · obtain ⟨e', he', rfl⟩ := hcopied
      obtain ⟨e, hmem, rfl⟩ := List.mem_map.1 he'
      exact ⟨e.dst, ⟨e, hmem, rfl⟩, rfl⟩
    · obtain ⟨j, ⟨e, hmem, rfl⟩, rfl⟩ := hold
      exact ⟨_, List.mem_map.2 ⟨e, hmem, rfl⟩, rfl⟩
  have hclosed : ∀ u ∈ m.Reached, ∀ v, m.HasEdge u v → v ∈ m.Reached := fun u hu v huv =>
    Relation.ReflTransGen.tail hu huv
  have himage : ∀ y ∈ k.Reached, ∃ u ∈ m.Reached, f u = y := by
    intro y hy
    induction hy with
    | refl => exact ⟨1, .refl, hf.start⟩
    | tail _ hxy ih =>
      obtain ⟨u, hu, rfl⟩ := ih
      obtain ⟨j, huj, rfl⟩ := (hedge u hu _).1 hxy
      exact ⟨j, hclosed u hu j huj, rfl⟩
  have harrivals : ∀ u ∈ m.Reached, (k.graph s).arrivals 1 (f u) = (m.graph s).arrivals 1 u := by
    intro u hu
    have hcopy : (k.graph s).arrivals (f 1) (f u) = (m.graph s).arrivals 1 u := by
      refine WordGraph.arrivals_image (Q := m.graph s) hf.bij.injOn (fun i hi => ?_) hedge hclosed .refl hu
      exact congrArg (fun w => ({w} : Language Event)) (reads_congr (haction i hi)).symm
    rwa [hf.start] at hcopy
  ext w
  refine ⟨fun hcopied => ?_, fun hold => ?_⟩
  · obtain ⟨y, hy, harr⟩ := hcopied
    obtain ⟨u, hu, rfl⟩ := himage y (reached_of_arrives harr .refl)
    exact ⟨u, (hfinal u hu).symm.trans hy, Set.ext_iff.1 (harrivals u hu) w |>.1 harr⟩
  · obtain ⟨u, hu, harr⟩ := hold
    have hmem := reached_of_arrives harr Relation.ReflTransGen.refl
    exact ⟨f u, (hfinal u hmem).trans hu, Set.ext_iff.1 (harrivals u hmem) w |>.2 harr⟩

/-- **`compact`.** -/
theorem executions_compact (hc : c.Constructed) (hstart : 1 < c.states.length)
    (h : c.minimise leaveLockables fuel = some m) (hall : ∀ u ∈ m.Reached, m.Active u) {fuel' : ℕ}
    (hk : m.compact fuel' = some k) : k.executions s = m.executions s := by
  obtain ⟨f, hf, he⟩ := (compactsReached_of_active hc hstart h hall).2 fuel' k hk
  exact executions_renumbered hf he

end AbstractCfg

end Liss
