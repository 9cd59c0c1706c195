/-
Graphs with a language at each node, and the words of the paths that end where they first reach a node.

A piece of a graph is a set of nodes that is left at one node only. What is read inside a piece does not depend on the
rest of the graph, pieces are put one after another, and a graph that is made of pieces reads what the graph of its
pieces reads.

- `arrives_through`: a path out of a piece reads a word of the piece and goes on behind it;
- `Piece.arrivals_congr`: what is read inside a piece;
- `Piece.append`: a piece after a piece;
- `Pieces.arrivals`: the graph of the pieces;
- `arrivals_contract`: the contraction of a graph to the nodes where something is read;
- `arrivals_image`: a copy with other names for the nodes.
-/
import Mathlib.Computability.Language
import Liss.Lib.Contraction

namespace Liss

variable {V W L : Type*}

structure WordGraph (V L : Type*) where
  edge : V → V → Prop
  /-- what is read at a node -/
  label : V → Language L

namespace WordGraph

variable {G H : WordGraph V L} {S T : Set V} {a b c d u v : V} {w x : List L}

/-- `w` is read on a path from `u` that ends where it first reaches `b` -/
inductive Arrives (G : WordGraph V L) (b : V) : V → List L → Prop
  | here {w : List L} (hw : w ∈ G.label b) : Arrives G b b w
  | step {u v : V} {x w : List L} (hu : u ≠ b) (hx : x ∈ G.label u) (he : G.edge u v) (h : Arrives G b v w) :
      Arrives G b u (x ++ w)

def arrivals (G : WordGraph V L) (u b : V) : Language L := {w | G.Arrives b u w}

theorem mem_arrivals : w ∈ G.arrivals u b ↔ G.Arrives b u w := Iff.rfl

theorem arrivals_self (G : WordGraph V L) (b : V) : G.arrivals b b = G.label b := by
  ext w
  rw [mem_arrivals]
  refine ⟨fun h => ?_, .here⟩
  cases h with
  | here hw => exact hw
  | step hu => exact absurd rfl hu

/-- more labels and edges -/
theorem arrivals_mono (hlabel : ∀ u, ∀ w ∈ G.label u, w ∈ H.label u) (hedge : ∀ u v, G.edge u v → H.edge u v)
    (u b : V) : ∀ w ∈ G.arrivals u b, w ∈ H.arrivals u b := by
  intro w h
  rw [mem_arrivals] at h ⊢
  induction h with
  | here hw => exact .here (hlabel b _ hw)
  | step hu hx he _ ih => exact .step hu (hlabel _ _ hx) (hedge _ _ he) ih

/-- something is read on the way to a node that can be reached, if something is read at each node on it -/
theorem exists_arrives (h : Relation.ReflTransGen G.edge u b)
    (hlabel : ∀ v, Relation.ReflTransGen G.edge u v → ∃ w, w ∈ G.label v) : ∃ w, G.Arrives b u w := by
  induction h using Relation.ReflTransGen.head_induction_on with
  | refl =>
    obtain ⟨w, hw⟩ := hlabel b .refl
    exact ⟨w, .here hw⟩
  | @head u v he _ ih =>
    obtain ⟨x, hx⟩ := hlabel u .refl
    by_cases hub : u = b
    · subst hub
      exact ⟨x, .here hx⟩
    · obtain ⟨w, hw⟩ := ih fun v' hv' => hlabel v' (hv'.head he)
      exact ⟨x ++ w, .step hub hx he hw⟩

/-! ## Pieces -/

/-- the nodes `S` are left at `b` only -/
def Closed (G : WordGraph V L) (S : Set V) (b : V) : Prop := ∀ u ∈ S, u ≠ b → ∀ v, G.edge u v → v ∈ S

theorem Closed.union (hS : G.Closed S b) (hT : G.Closed T d) (hb : ∀ v, G.edge b v → v ∈ T) : G.Closed (S ∪ T) d := by
  intro u hu hne v he
  rcases hu with hu | hu
  · by_cases hub : u = b
    · exact .inr (hb v (hub ▸ he))
    · exact .inl (hS u hu hub v he)
  · exact .inr (hT u hu hne v he)

/-- **Out of a piece.** -/
theorem arrives_through (hS : G.Closed S b) (hu : u ∈ S) (hc : c ∉ S) :
    G.Arrives c u w ↔ ∃ x, G.Arrives b u x ∧ ∃ v, G.edge b v ∧ ∃ y, G.Arrives c v y ∧ x ++ y = w := by
  constructor
  · intro h
    induction h with
    | here => exact absurd hu hc
    | @step u v x w hne hx he h ih =>
      by_cases hub : u = b
      · subst hub
        exact ⟨x, .here hx, v, he, w, h, rfl⟩
      · obtain ⟨x', hx', v', he', y, hy, rfl⟩ := ih (hS u hu hub v he)
        exact ⟨x ++ x', .step hub hx he hx', v', he', y, hy, List.append_assoc ..⟩
  · rintro ⟨x, hx, v, he, y, hy, rfl⟩
    induction hx with
    | here hw => exact .step (fun h => hc (h ▸ hu)) hw he hy
    | @step u v' x w hne hx he' _ ih =>
      rw [List.append_assoc]
      exact .step (fun h => hc (h ▸ hu)) hx he' (ih (hS u hu hne v' he'))

/-- `S` is entered at `a` and left at `b` -/
structure Piece (G : WordGraph V L) (S : Set V) (a b : V) : Prop where
  entry : a ∈ S
  exit : b ∈ S
  closed : G.Closed S b

/-- the graphs are the same on a piece, but for the edges at its end -/
structure Agree (G H : WordGraph V L) (S : Set V) (b : V) : Prop where
  label : ∀ u ∈ S, H.label u = G.label u
  edge : ∀ u ∈ S, u ≠ b → ∀ v, H.edge u v ↔ G.edge u v

theorem Agree.symm (h : Agree G H S b) : Agree H G S b :=
  ⟨fun u hu => (h.label u hu).symm, fun u hu hne v => (h.edge u hu hne v).symm⟩

theorem Closed.congr (hS : G.Closed S b) (h : Agree G H S b) : H.Closed S b :=
  fun u hu hne v he => hS u hu hne v ((h.edge u hu hne v).1 he)

theorem Piece.congr (hS : G.Piece S a b) (h : Agree G H S b) : H.Piece S a b := ⟨hS.entry, hS.exit, hS.closed.congr h⟩

theorem Closed.arrives (hS : G.Closed S b) (h : Agree G H S b) (hu : u ∈ S) (harr : G.Arrives b u w) :
    H.Arrives b u w := by
  induction harr with
  | here hw => exact .here ((h.label b hu) ▸ hw)
  | @step u v x w hne hx he _ ih =>
    exact .step hne ((h.label u hu) ▸ hx) ((h.edge u hu hne v).2 he) (ih (hS u hu hne v he))

/-- **Inside a piece.** -/
theorem Piece.arrivals_congr (hS : G.Piece S a b) (h : Agree G H S b) : H.arrivals a b = G.arrivals a b := by
  ext w
  exact ⟨(hS.closed.congr h).arrives h.symm hS.entry, hS.closed.arrives h hS.entry⟩

/-- **A piece after a piece.** -/
theorem Piece.append (hS : G.Piece S a b) (hT : G.Piece T c d) (hd : d ∉ S) (hb : ∀ v, G.edge b v ↔ v = c) :
    G.Piece (S ∪ T) a d ∧ G.arrivals a d = G.arrivals a b * G.arrivals c d := by
  refine ⟨⟨.inl hS.entry, .inr hT.exit, hS.closed.union hT.closed fun v he => (hb v).1 he ▸ hT.entry⟩, ?_⟩
  ext w
  rw [Language.mem_mul, mem_arrivals, arrives_through hS.closed hS.entry hd]
  refine ⟨fun hw => ?_, fun hw => ?_⟩
  · obtain ⟨x, hx, v, he, y, hy, rfl⟩ := hw
    obtain rfl := (hb v).1 he
    exact ⟨x, hx, y, hy, rfl⟩
  · obtain ⟨x, hx, y, hy, rfl⟩ := hw
    exact ⟨x, hx, c, (hb c).2 rfl, y, hy, rfl⟩

/-- one node -/
theorem piece_single (G : WordGraph V L) (b : V) : G.Piece {b} b b :=
  ⟨rfl, rfl, fun _ hu hne => absurd hu hne⟩

/-! ## Graphs of pieces -/

/-- `G` is made of pieces, the nodes `I` of `Q`, which are put together by the edges of `Q` -/
structure Pieces (G : WordGraph V L) (Q : WordGraph W L) (I : Set W) (S : W → Set V) (first last : W → V) : Prop where
  piece : ∀ i ∈ I, G.Piece (S i) (first i) (last i)
  disjoint : ∀ i ∈ I, ∀ j ∈ I, ∀ u, u ∈ S i → u ∈ S j → i = j
  label : ∀ i ∈ I, Q.label i = G.arrivals (first i) (last i)
  edge : ∀ i ∈ I, ∀ v, G.edge (last i) v ↔ ∃ j, Q.edge i j ∧ first j = v
  closed : ∀ i ∈ I, ∀ j, Q.edge i j → j ∈ I

namespace Pieces

variable {Q : WordGraph W L} {I : Set W} {P : W → Set V} {first last : W → V} {i e : W}

/-- from inside a piece: to its end, and on from there -/
theorem inside (h : Pieces G Q I P first last) (he : e ∈ I) (hi : i ∈ I) (hu : u ∈ P i)
    (harr : G.Arrives (last e) u w) :
    ∃ x y, G.Arrives (last i) u x ∧ x ++ y = w ∧
      ((i = e ∧ y = []) ∨ (i ≠ e ∧ ∃ j, Q.edge i j ∧ Q.Arrives e j y)) := by
  induction harr generalizing i with
  | @here w hw =>
    obtain rfl := h.disjoint i hi e he _ hu (h.piece e he).exit
    exact ⟨w, [], .here hw, List.append_nil w, .inl ⟨rfl, rfl⟩⟩
  | @step u v x w hne hx hedge _ ih =>
    by_cases hlast : u = last i
    · subst hlast
      have hie : i ≠ e := fun heq => hne (heq ▸ rfl)
      obtain ⟨j, hj, rfl⟩ := (h.edge i hi v).1 hedge
      have hjI := h.closed i hi j hj
      obtain ⟨x', y, hx', rfl, hrest⟩ := ih hjI (h.piece j hjI).entry
      refine ⟨x, x' ++ y, .here hx, rfl, .inr ⟨hie, j, hj, ?_⟩⟩
      have hlabel : x' ∈ Q.label j := (h.label j hjI) ▸ hx'
      rcases hrest with ⟨rfl, rfl⟩ | ⟨hje, j', hj', hy⟩
      · rw [List.append_nil]
        exact .here hlabel
      · exact .step hje hlabel hj' hy
    · obtain ⟨x', y, hx', rfl, hrest⟩ := ih hi ((h.piece i hi).closed u hu hlast v hedge)
      exact ⟨x ++ x', y, .step hlast hx hedge hx', List.append_assoc .., hrest⟩

/-- **The graph of the pieces.** -/
theorem arrivals (h : Pieces G Q I P first last) (hi : i ∈ I) (he : e ∈ I) :
    G.arrivals (first i) (last e) = Q.arrivals i e := by
  ext w
  constructor
  · intro harr
    obtain ⟨x, y, hx, rfl, hrest⟩ := h.inside he hi (h.piece i hi).entry harr
    have hlabel : x ∈ Q.label i := (h.label i hi) ▸ hx
    rcases hrest with ⟨rfl, rfl⟩ | ⟨hie, j, hj, hy⟩
    · rw [List.append_nil]
      exact .here hlabel
    · exact Arrives.step hie hlabel hj hy
  · intro harr
    rw [mem_arrivals] at harr
    induction harr with
    | here hw => exact (h.label e he) ▸ hw
    | @step i j x w hne hx hj _ ih =>
      have hjI := h.closed i hi j hj
      have hout : last e ∉ P i := fun hmem => hne (h.disjoint i hi e he _ hmem (h.piece e he).exit)
      have hx' : G.Arrives (last i) (first i) x := by
        have := h.label i hi
        rw [this] at hx
        exact hx
      refine (arrives_through (h.piece i hi).closed (h.piece i hi).entry hout).2 ⟨x, hx', first j, ?_, w, ih hjI, rfl⟩
      exact (h.edge i hi _).2 ⟨j, hj, rfl⟩

end Pieces

/-! ## Other graphs that read the same -/

section

variable {kept : V → Bool}

/-- along a link nothing is read but at its start -/
theorem arrives_link (hremoved : ∀ u, kept u = false → G.label u = 1) (hb : kept b = true) {ds : List V}
    (hl : Link G.edge kept u ds v) (hu : u ≠ b) (hx : x ∈ G.label u) (h : G.Arrives b v w) :
    G.Arrives b u (x ++ w) := by
  induction ds generalizing u x with
  | nil => exact .step hu hx (link_nil.1 hl) h
  | cons d ds ih =>
    obtain ⟨he, hd, hl⟩ := link_cons.1 hl
    have hnil : [] ∈ G.label d := hremoved d hd ▸ Language.nil_mem_one
    have hdb : d ≠ b := fun heq => by simp [← heq, hd] at hb
    exact .step hu hx he (ih hl hdb hnil)

/-- **Contraction.** -/
theorem arrivals_contract (hlabel : ∀ u, kept u = true ∨ u = a → H.label u = G.label u)
    (hremoved : ∀ u, kept u = false → G.label u = 1) (hb : kept b = true) {S : V → Prop}
    (hC : ∀ u v, S u → (H.edge u v ↔ kept v = true ∧ ∃ ds, Link G.edge kept u ds v))
    (hS : ∀ u v, S u → H.edge u v → S v) (ha : S a) : H.arrivals a b = G.arrivals a b := by
  have hforth : ∀ x w, G.Arrives b x w → (S x → kept x = true ∨ x = a → H.Arrives b x w) ∧
      ∀ u, S u → kept x = false → (∃ ds, Link G.edge kept u ds x) → ∃ v, H.edge u v ∧ H.Arrives b v w := by
    intro x w h
    induction h with
    | @here w hw => exact ⟨fun _ hk => .here ((hlabel b hk).symm ▸ hw), fun u _ hk _ => by rw [hb] at hk; simp at hk⟩
    | @step x v y w hx hy he _ ih =>
      constructor
      · intro hSx hk
        have hy' : y ∈ H.label x := (hlabel x hk).symm ▸ hy
        cases hv : kept v with
        | true =>
          have hedge := (hC x v hSx).2 ⟨hv, [], link_nil.2 he⟩
          exact .step hx hy' hedge (ih.1 (hS x v hSx hedge) (.inl hv))
        | false =>
          obtain ⟨v', hedge, harr⟩ := ih.2 x hSx hv ⟨[], link_nil.2 he⟩
          exact .step hx hy' hedge harr
      · rintro u hSu hk ⟨ds, hl⟩
        rw [hremoved x hk, Language.mem_one] at hy
        have hl' : Link G.edge kept u (ds ++ [x]) v := link_snoc.2 ⟨hl, hk, he⟩
        cases hv : kept v with
        | true =>
          have hedge := (hC u v hSu).2 ⟨hv, _, hl'⟩
          exact ⟨v, hedge, hy ▸ ih.1 (hS u v hSu hedge) (.inl hv)⟩
        | false =>
          obtain ⟨v', hedge, harr⟩ := ih.2 u hSu hv ⟨_, hl'⟩
          exact ⟨v', hedge, hy ▸ harr⟩
  have hback : ∀ x w, H.Arrives b x w → S x → kept x = true ∨ x = a → G.Arrives b x w := by
    intro x w h
    induction h with
    | @here w hw => exact fun _ hk => .here (hlabel b hk ▸ hw)
    | @step x v y w hx hy he _ ih =>
      intro hSx hk
      obtain ⟨hv, ds, hl⟩ := (hC x v hSx).1 he
      exact arrives_link hremoved hb hl hx (hlabel x hk ▸ hy) (ih (hS x v hSx he) (.inl hv))
  ext w
  exact ⟨fun h => hback a w h ha (.inr rfl), fun h => (hforth a w h).1 ha (.inr rfl)⟩

end

/-- **Other names.** -/
theorem arrivals_image {Q : WordGraph W L} {I : Set W} {f : W → V} (hf : Set.InjOn f I)
    (hlabel : ∀ i ∈ I, Q.label i = G.label (f i)) (hedge : ∀ i ∈ I, ∀ v, G.edge (f i) v ↔ ∃ j, Q.edge i j ∧ f j = v)
    (hI : ∀ i ∈ I, ∀ j, Q.edge i j → j ∈ I) {i e : W} (hi : i ∈ I) (he : e ∈ I) :
    G.arrivals (f i) (f e) = Q.arrivals i e := by
  refine Pieces.arrivals (P := fun i => {f i}) ⟨fun i _ => piece_single G (f i), fun i hi j hj u hu hu' => ?_,
    fun i hi => ?_, hedge, hI⟩ hi he
  · exact hf hi hj ((Set.mem_singleton_iff.1 hu).symm.trans (Set.mem_singleton_iff.1 hu'))
  · rw [arrivals_self]
    exact hlabel i hi

end WordGraph

end Liss
