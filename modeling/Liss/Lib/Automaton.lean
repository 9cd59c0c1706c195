/-
Automata given by four functions: the initial states, the symbols offered at a state, the successors under a symbol,
and the final states. A run takes offered symbols only.

- `path_inv`: what holds initially and is kept by every step holds along every path;
- `path_of_trace`: reading a word gives a run of it;
- `mem_wordsBelow`: the accepted words of an automaton without long paths can be enumerated;
- `accepts_restrict`: an automaton that offers fewer symbols accepts the words that do without the others;
- `acceptsFrom_of_path`: in a deterministic automaton what is accepted after a prefix is accepted from where it leads;
- `drop_simulation`: if every step of A is either invisible to B or matched by a step of B with the same symbol, then
  every path of A becomes, after deleting the invisible steps, a path of B.
-/
import Mathlib.Tactic

namespace Liss

structure Automaton (State Sym : Type*) where
  initial : List State
  next : State → List Sym
  succ : State → Sym → List State
  final : State → Bool

/-- one transition -/
structure Trans (State Sym : Type*) where
  src : State
  sym : Sym
  dst : State
deriving DecidableEq

namespace Automaton

variable {S T Sym : Type*}

def Step (A : Automaton S Sym) (t : Trans S Sym) : Prop := t.sym ∈ A.next t.src ∧ t.dst ∈ A.succ t.src t.sym

instance [DecidableEq S] [DecidableEq Sym] (A : Automaton S Sym) (t : Trans S Sym) : Decidable (A.Step t) :=
  inferInstanceAs (Decidable (_ ∧ _))

/-- `A.Path s r t`: the transitions `r` lead from `s` to `t` -/
inductive Path (A : Automaton S Sym) : S → List (Trans S Sym) → S → Prop where
  | nil (s : S) : Path A s [] s
  | cons {t : Trans S Sym} {r : List (Trans S Sym)} {u : S} : A.Step t → Path A t.dst r u → Path A t.src (t :: r) u

/-- a run from an initial state -/
def Run (A : Automaton S Sym) (r : List (Trans S Sym)) (t : S) : Prop := ∃ s ∈ A.initial, A.Path s r t

/-- the word of a run -/
def word (r : List (Trans S Sym)) : List Sym := r.map Trans.sym

/-- `w` is the word of some run -/
def Runs (A : Automaton S Sym) (w : List Sym) : Prop := ∃ r t, A.Run r t ∧ word r = w

/-- `w` is the word of some run to a final state -/
def Accepts (A : Automaton S Sym) (w : List Sym) : Prop := ∃ r t, A.Run r t ∧ A.final t = true ∧ word r = w

@[simp] theorem word_nil : word ([] : List (Trans S Sym)) = [] := rfl

@[simp] theorem word_cons (t : Trans S Sym) (r : List (Trans S Sym)) : word (t :: r) = t.sym :: word r := rfl

@[simp] theorem word_append (r r' : List (Trans S Sym)) : word (r ++ r') = word r ++ word r' := by simp [word]

theorem path_nil_iff {A : Automaton S Sym} {s t : S} : A.Path s [] t ↔ s = t := by
  constructor
  · rintro ⟨⟩; rfl
  · rintro rfl; exact .nil _

theorem path_cons_iff {A : Automaton S Sym} {s u : S} {t : Trans S Sym} {r : List (Trans S Sym)} :
    A.Path s (t :: r) u ↔ s = t.src ∧ A.Step t ∧ A.Path t.dst r u := by
  constructor
  · rintro ⟨⟩; exact ⟨rfl, ‹_›, ‹_›⟩
  · rintro ⟨rfl, h1, h2⟩; exact .cons h1 h2

theorem path_append_iff {A : Automaton S Sym} {s u : S} {r r' : List (Trans S Sym)} :
    A.Path s (r ++ r') u ↔ ∃ m, A.Path s r m ∧ A.Path m r' u := by
  induction r generalizing s with
  | nil => simp [path_nil_iff]
  | cons t r ih =>
    simp only [List.cons_append, path_cons_iff, ih]
    constructor
    · rintro ⟨h1, h2, m, h3, h4⟩; exact ⟨m, ⟨h1, h2, h3⟩, h4⟩
    · rintro ⟨m, ⟨h1, h2, h3⟩, h4⟩; exact ⟨h1, h2, m, h3, h4⟩

theorem Path.append {A : Automaton S Sym} {s m u : S} {r r' : List (Trans S Sym)} (h : A.Path s r m)
    (h' : A.Path m r' u) : A.Path s (r ++ r') u := path_append_iff.2 ⟨m, h, h'⟩

theorem Path.single {A : Automaton S Sym} {t : Trans S Sym} (h : A.Step t) : A.Path t.src [t] t.dst :=
  .cons h (.nil _)

theorem Path.step {A : Automaton S Sym} {s u : S} {r : List (Trans S Sym)} (h : A.Path s r u) :
    ∀ t ∈ r, A.Step t := by
  induction h with
  | nil s => simp
  | cons ht _ ih =>
    intro t' hm
    rcases List.mem_cons.1 hm with rfl | hm
    · exact ht
    · exact ih t' hm

/-- **Invariant rule.** -/
theorem path_inv {A : Automaton S Sym} (I : S → Prop) (hstep : ∀ t, A.Step t → I t.src → I t.dst)
    {s u : S} {r : List (Trans S Sym)} (h : A.Path s r u) (h0 : I s) : I u := by
  induction h with
  | nil s => exact h0
  | cons ht _ ih => exact ih (hstep _ ht h0)

/-- the invariant holds before every step of a path -/
theorem path_inv_src {A : Automaton S Sym} (I : S → Prop) (hstep : ∀ t, A.Step t → I t.src → I t.dst)
    {s u : S} {r : List (Trans S Sym)} (h : A.Path s r u) (h0 : I s) : ∀ t ∈ r, I t.src := by
  induction h with
  | nil s => simp
  | cons ht _ ih =>
    intro t' hm
    rcases List.mem_cons.1 hm with rfl | hm
    · exact h0
    · exact ih (hstep _ ht h0) t' hm

/-! ## Reading a word -/

/-- read a word from a state, taking the first successor each time -/
def trace [DecidableEq Sym] (A : Automaton S Sym) : S → List Sym → Option (List (Trans S Sym) × S)
  | s, [] => some ([], s)
  | s, x :: w =>
    if x ∈ A.next s then
      match A.succ s x with
      | [] => none
      | s' :: _ => (A.trace s' w).map fun p => (⟨s, x, s'⟩ :: p.1, p.2)
    else none

theorem path_of_trace [DecidableEq Sym] {A : Automaton S Sym} {s u : S} {w : List Sym} {r : List (Trans S Sym)}
    (h : A.trace s w = some (r, u)) : A.Path s r u ∧ word r = w := by
  induction w generalizing s r with
  | nil =>
    simp only [trace, Option.some.injEq, Prod.mk.injEq] at h
    obtain ⟨rfl, rfl⟩ := h
    exact ⟨.nil s, rfl⟩
  | cons x w ih =>
    rw [trace] at h
    split_ifs at h with hx
    split at h
    · simp at h
    · rename_i s' l hsucc
      obtain ⟨⟨r', u'⟩, htr, heq⟩ := Option.map_eq_some_iff.1 h
      simp only [Prod.mk.injEq] at heq
      obtain ⟨rfl, rfl⟩ := heq
      obtain ⟨hp, hw⟩ := ih htr
      have hstep : A.Step ⟨s, x, s'⟩ := ⟨hx, by simp [hsucc]⟩
      exact ⟨.cons hstep hp, by simp [hw]⟩

/-! ## Enumeration -/

/-- the words of length `n` that can be read from a state, with the states where they lead -/
def pathsOf (A : Automaton S Sym) : ℕ → S → List (List Sym × S)
  | 0, s => [([], s)]
  | n + 1, s =>
    (A.next s).flatMap fun x => (A.succ s x).flatMap fun t => (A.pathsOf n t).map fun p => (x :: p.1, p.2)

/-- the accepted words shorter than `n` -/
def wordsBelow (A : Automaton S Sym) (n : ℕ) : List (List Sym) :=
  (List.range n).flatMap fun k => A.initial.flatMap fun s => ((A.pathsOf k s).filter fun p => A.final p.2).map Prod.fst

theorem mem_pathsOf {A : Automaton S Sym} {s u : S} {r : List (Trans S Sym)} (h : A.Path s r u) :
    (word r, u) ∈ A.pathsOf r.length s := by
  induction h with
  | nil s => exact List.mem_singleton_self _
  | @cons t r u ht _ ih =>
    rw [List.length_cons, pathsOf]
    refine List.mem_flatMap.2 ⟨t.sym, ht.1, List.mem_flatMap.2 ⟨t.dst, ht.2, ?_⟩⟩
    exact List.mem_map.2 ⟨_, ih, rfl⟩

theorem pathsOf_of_le {A : Automaton S Sym} {n k : ℕ} (hnk : n ≤ k) {s : S} (h : A.pathsOf n s = []) :
    A.pathsOf k s = [] := by
  induction n generalizing s k with
  | zero => simp [pathsOf] at h
  | succ n ih =>
    obtain ⟨k, rfl⟩ : ∃ j, k = j + 1 := ⟨k - 1, by omega⟩
    rw [pathsOf, List.flatMap_eq_nil_iff] at h ⊢
    intro x hx
    have hnext := h x hx
    rw [List.flatMap_eq_nil_iff] at hnext ⊢
    intro t ht
    rw [List.map_eq_nil_iff]
    exact ih (by omega) (List.map_eq_nil_iff.1 (hnext t ht))

theorem path_of_pathsOf {A : Automaton S Sym} {n : ℕ} {s u : S} {w : List Sym} (h : (w, u) ∈ A.pathsOf n s) :
    ∃ r, A.Path s r u ∧ word r = w := by
  induction n generalizing s w with
  | zero =>
    obtain ⟨rfl, rfl⟩ := Prod.mk.inj (List.mem_singleton.1 h)
    exact ⟨[], .nil _, rfl⟩
  | succ n ih =>
    obtain ⟨x, hx, h⟩ := List.mem_flatMap.1 h
    obtain ⟨t, ht, h⟩ := List.mem_flatMap.1 h
    obtain ⟨⟨v, u'⟩, hv, heq⟩ := List.mem_map.1 h
    obtain ⟨rfl, rfl⟩ := Prod.mk.inj heq
    obtain ⟨r, hp, rfl⟩ := ih hv
    exact ⟨⟨s, x, t⟩ :: r, Path.cons (t := ⟨s, x, t⟩) ⟨hx, ht⟩ hp, rfl⟩

theorem accepts_of_wordsBelow {A : Automaton S Sym} {n : ℕ} {w : List Sym} (h : w ∈ A.wordsBelow n) : A.Accepts w := by
  obtain ⟨k, -, h⟩ := List.mem_flatMap.1 h
  obtain ⟨s, hs, h⟩ := List.mem_flatMap.1 h
  obtain ⟨⟨v, u⟩, hmem, rfl⟩ := List.mem_map.1 h
  obtain ⟨hpath, hf⟩ := List.mem_filter.1 hmem
  obtain ⟨r, hp, hw⟩ := path_of_pathsOf hpath
  exact ⟨r, u, ⟨s, hs, hp⟩, hf, hw⟩

/-- **Enumeration.** When no word of length `n` can be read, the accepted words are shorter. -/
theorem mem_wordsBelow {A : Automaton S Sym} {n : ℕ} (h : ∀ s ∈ A.initial, A.pathsOf n s = []) {w : List Sym}
    (hw : A.Accepts w) : w ∈ A.wordsBelow n := by
  obtain ⟨r, t, ⟨s, hs, hp⟩, hf, rfl⟩ := hw
  have hmem := mem_pathsOf hp
  have hlt : r.length < n := by
    by_contra hle
    rw [pathsOf_of_le (not_lt.1 hle) (h s hs)] at hmem
    exact absurd hmem List.not_mem_nil
  refine List.mem_flatMap.2 ⟨r.length, List.mem_range.2 hlt, List.mem_flatMap.2 ⟨s, hs, ?_⟩⟩
  exact List.mem_map.2 ⟨_, List.mem_filter.2 ⟨hmem, hf⟩, rfl⟩

/-! ## Acceptance from a state -/

def AcceptsFrom (A : Automaton S Sym) (s : S) (w : List Sym) : Prop :=
  ∃ r t, A.Path s r t ∧ A.final t = true ∧ word r = w

theorem accepts_iff {A : Automaton S Sym} {w : List Sym} : A.Accepts w ↔ ∃ s ∈ A.initial, A.AcceptsFrom s w := by
  constructor
  · intro ⟨r, t, ⟨s, hs, hp⟩, hf, hw⟩
    exact ⟨s, hs, r, t, hp, hf, hw⟩
  · intro ⟨s, hs, r, t, hp, hf, hw⟩
    exact ⟨r, t, ⟨s, hs, hp⟩, hf, hw⟩

@[simp] theorem acceptsFrom_nil {A : Automaton S Sym} {s : S} : A.AcceptsFrom s [] ↔ A.final s = true := by
  constructor
  · intro ⟨r, t, hp, hf, hw⟩
    obtain rfl := List.map_eq_nil_iff.1 hw
    exact path_nil_iff.1 hp ▸ hf
  · intro hf
    exact ⟨[], s, .nil s, hf, rfl⟩

theorem acceptsFrom_cons {A : Automaton S Sym} {s : S} {x : Sym} {w : List Sym} :
    A.AcceptsFrom s (x :: w) ↔ ∃ t, A.Step ⟨s, x, t⟩ ∧ A.AcceptsFrom t w := by
  constructor
  · intro ⟨r, u, hp, hf, hw⟩
    cases hp with
    | nil => simp at hw
    | @cons t r _ ht hp =>
      obtain ⟨rfl, rfl⟩ := List.cons.inj hw
      exact ⟨t.dst, ht, r, u, hp, hf, rfl⟩
  · intro ⟨t, ht, r, u, hp, hf, hw⟩
    exact ⟨⟨s, x, t⟩ :: r, u, .cons ht hp, hf, by rw [word_cons, hw]⟩

/-- **Determinism.** -/
theorem acceptsFrom_of_path {A : Automaton S Sym} (hdet : ∀ s x, (A.succ s x).length ≤ 1) {s u : S}
    {r : List (Trans S Sym)} (hp : A.Path s r u) {w : List Sym} (h : A.AcceptsFrom s (word r ++ w)) :
    A.AcceptsFrom u w := by
  induction hp with
  | nil s => exact h
  | @cons t r u ht _ ih =>
    rw [word_cons, List.cons_append, acceptsFrom_cons] at h
    obtain ⟨t', ht', hacc⟩ := h
    have heq : t' = t.dst := by
      obtain ⟨x, hx⟩ : ∃ x, A.succ t.src t.sym = [x] :=
        List.length_eq_one_iff.1 (Nat.le_antisymm (hdet _ _) (List.length_pos_of_mem ht.2))
      have h1 : t' ∈ A.succ t.src t.sym := ht'.2
      have h2 : t.dst ∈ A.succ t.src t.sym := ht.2
      rw [hx, List.mem_singleton] at h1 h2
      rw [h1, h2]
    exact ih (heq ▸ hacc)

/-- only the symbols that pass a test are offered -/
def restrict (A : Automaton S Sym) (P : Sym → Bool) : Automaton S Sym := { A with next := fun s => (A.next s).filter P }

theorem step_restrict {A : Automaton S Sym} {P : Sym → Bool} {t : Trans S Sym} :
    (A.restrict P).Step t ↔ A.Step t ∧ P t.sym = true := by
  simp only [Step, restrict, List.mem_filter]
  exact ⟨fun ⟨⟨h1, h2⟩, h3⟩ => ⟨⟨h1, h3⟩, h2⟩, fun ⟨⟨h1, h2⟩, h3⟩ => ⟨⟨h1, h3⟩, h2⟩⟩

theorem path_restrict {A : Automaton S Sym} {P : Sym → Bool} {s u : S} {r : List (Trans S Sym)} :
    (A.restrict P).Path s r u ↔ A.Path s r u ∧ ∀ x ∈ word r, P x = true := by
  induction r generalizing s with
  | nil => simp [path_nil_iff]
  | cons t r ih =>
    rw [path_cons_iff, path_cons_iff, step_restrict, ih, word_cons, List.forall_mem_cons]
    exact ⟨fun ⟨h1, ⟨h2, h3⟩, h4, h5⟩ => ⟨⟨h1, h2, h4⟩, h3, h5⟩, fun ⟨⟨h1, h2, h4⟩, h3, h5⟩ => ⟨h1, ⟨h2, h3⟩, h4, h5⟩⟩

theorem accepts_restrict {A : Automaton S Sym} {P : Sym → Bool} {w : List Sym} :
    (A.restrict P).Accepts w ↔ A.Accepts w ∧ ∀ x ∈ w, P x = true := by
  constructor
  · rintro ⟨r, t, ⟨s, hs, hp⟩, hf, rfl⟩
    obtain ⟨hp, hall⟩ := path_restrict.1 hp
    exact ⟨⟨r, t, ⟨s, hs, hp⟩, hf, rfl⟩, hall⟩
  · rintro ⟨⟨r, t, ⟨s, hs, hp⟩, hf, rfl⟩, hall⟩
    exact ⟨r, t, ⟨s, hs, path_restrict.2 ⟨hp, hall⟩⟩, hf, rfl⟩

/-- **Simulation with invisible steps.** `R` relates the states; a step of `A` that is not kept does not move `B`, a
kept one is matched by a step of `B` with the same symbol. -/
theorem drop_simulation {A : Automaton S Sym} {B : Automaton T Sym} (R : S → T → Prop) (keep : Trans S Sym → Bool)
    (hdrop : ∀ t b, A.Step t → keep t = false → R t.src b → R t.dst b)
    (hkeep : ∀ t b, A.Step t → keep t = true → R t.src b →
      ∃ b', B.Step ⟨b, t.sym, b'⟩ ∧ R t.dst b')
    {s u : S} {r : List (Trans S Sym)} {b : T} (h : A.Path s r u) (h0 : R s b) :
    ∃ r' b', B.Path b r' b' ∧ R u b' ∧
      List.Forall₂ (fun x y => x.sym = y.sym ∧ R x.src y.src ∧ R x.dst y.dst) (r.filter keep) r' := by
  induction h generalizing b with
  | nil s => exact ⟨[], b, .nil b, h0, .nil⟩
  | @cons t r u ht _ ih =>
    cases hk : keep t with
    | false =>
      obtain ⟨r', b', hp, hR, hf⟩ := ih (hdrop t b ht hk h0)
      exact ⟨r', b', hp, hR, by rwa [List.filter_cons_of_neg (by simp [hk])]⟩
    | true =>
      obtain ⟨b1, hb, hR1⟩ := hkeep t b ht hk h0
      obtain ⟨r', b', hp, hR, hf⟩ := ih hR1
      refine ⟨⟨b, t.sym, b1⟩ :: r', b', .cons hb hp, hR, ?_⟩
      rw [List.filter_cons_of_pos hk]
      exact .cons ⟨rfl, h0, hR1⟩ hf

end Automaton

end Liss
