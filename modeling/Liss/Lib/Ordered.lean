/-
Lists ordered by the value of a function, and what stands between two elements of a sublist.

- `orderBy`: the list in the order of the values;
- `exists_least`: an element with a property and the least value;
- `lt_iff_of_increasing`: functions with increasing values along one list agree on its order;
- `filter_orderBy`: a sublist that is ordered already stays as it is;
- `pair_infix_iff`, `pair_infix_iff_zip`: neighbours, by index and as a list of pairs;
- `pair_infix_filter`: neighbours of a sublist have only other elements in between;
- `mem_between`: in a strictly ordered list these are the elements with a value in between;
- `exists_step`, `exists_pair`: a value between two elements is stepped over somewhere;
- `exists_after`, `isChain_of_between`, `head_iff`: neighbours and first elements with a property;
- `exists_postponed`: a relation along which values increase leaves the order of two elements open that it does not relate.
-/
import Mathlib.Data.List.Chain
import Mathlib.Data.List.Sort
import Mathlib.Data.Set.Finite.Lattice
import Mathlib.Data.Set.Finite.Lemmas

namespace Liss

variable {α β : Type*} [LinearOrder β]

/-- the list in the order of the values -/
def orderBy (f : α → β) (l : List α) : List α := l.insertionSort fun a b => f a ≤ f b

/-- strictly increasing values -/
abbrev Increasing (f : α → β) (l : List α) : Prop := l.Pairwise fun a b => f a < f b

variable {f : α → β} {l : List α}

theorem orderBy_perm (f : α → β) (l : List α) : (orderBy f l).Perm l := List.perm_insertionSort _ l

@[simp] theorem mem_orderBy {a : α} : a ∈ orderBy f l ↔ a ∈ l := (orderBy_perm f l).mem_iff

theorem orderBy_le (f : α → β) (l : List α) : (orderBy f l).Pairwise fun a b => f a ≤ f b := by
  have : Std.Total fun a b : α => f a ≤ f b := ⟨fun a b => le_total (f a) (f b)⟩
  have : IsTrans α fun a b => f a ≤ f b := ⟨fun _ _ _ => le_trans⟩
  exact List.pairwise_insertionSort _ l

theorem orderBy_increasing (h : l.Pairwise fun a b => f a ≠ f b) : Increasing f (orderBy f l) := by
  have hne : (orderBy f l).Pairwise fun a b => f a ≠ f b :=
    (orderBy_perm f l).symm.pairwise h fun hab => Ne.symm hab
  exact (orderBy_le f l).imp₂ (fun a b hle hne => lt_of_le_of_ne hle hne) hne

theorem Increasing.eq_of_perm {l l' : List α} (h : Increasing f l) (h' : Increasing f l') (hp : l.Perm l') : l = l' :=
  hp.eq_of_pairwise (fun _ _ _ _ hab hba => absurd (hab.trans hba) (lt_irrefl _)) h h'

theorem filter_orderBy {q : α → Bool} (h : l.Pairwise fun a b => f a ≠ f b) (hq : Increasing f (l.filter q)) :
    (orderBy f l).filter q = l.filter q :=
  Increasing.eq_of_perm ((orderBy_increasing h).filter q) hq ((orderBy_perm f l).filter q)

/-- functions whose values increase along the same list order its elements in the same way -/
theorem lt_iff_of_increasing {γ : Type*} [LinearOrder γ] {g : α → γ} (hf : Increasing f l) (hg : Increasing g l)
    {a b : α} (ha : a ∈ l) (hb : b ∈ l) : f a < f b ↔ g a < g b := by
  induction l with
  | nil => simp at ha
  | cons c l ih =>
    obtain ⟨hfc, hf'⟩ := List.pairwise_cons.1 hf
    obtain ⟨hgc, hg'⟩ := List.pairwise_cons.1 hg
    rcases List.mem_cons.1 ha with rfl | ha1
    · rcases List.mem_cons.1 hb with rfl | hb1
      · simp only [lt_irrefl]
      · exact ⟨fun _ => hgc b hb1, fun _ => hfc b hb1⟩
    · rcases List.mem_cons.1 hb with rfl | hb1
      · exact ⟨fun h => absurd (h.trans (hfc a ha1)) (lt_irrefl _), fun h => absurd (h.trans (hgc a ha1)) (lt_irrefl _)⟩
      · exact ih hf' hg' ha1 hb1

/-- an element with a property and the least value -/
theorem exists_least (f : α → β) {p : α → Prop} (h : ∃ a ∈ l, p a) : ∃ a ∈ l, p a ∧ ∀ b ∈ l, p b → f a ≤ f b := by
  obtain ⟨a, ha, hmin⟩ := Set.exists_min_image {a | a ∈ l ∧ p a} f ((List.finite_toSet l).subset fun _ ha => ha.1) h
  exact ⟨a, ha.1, ha.2, fun b hb hpb => hmin b ⟨hb, hpb⟩⟩

/-! ## Neighbours -/

theorem pair_infix_iff {a b : α} : [a, b] <:+: l ↔ ∃ k, l[k]? = some a ∧ l[k + 1]? = some b := by
  constructor
  · rintro ⟨pre, post, rfl⟩
    exact ⟨pre.length, by simp, by simp⟩
  · rintro ⟨k, ha, hb⟩
    obtain ⟨hk, rfl⟩ := List.getElem?_eq_some_iff.1 ha
    obtain ⟨hk', rfl⟩ := List.getElem?_eq_some_iff.1 hb
    refine ⟨l.take k, l.drop (k + 2), ?_⟩
    rw [List.append_assoc, List.cons_append, List.cons_append, List.nil_append, ← List.drop_eq_getElem_cons hk',
      ← List.drop_eq_getElem_cons hk, List.take_append_drop]

theorem pair_infix_iff_zip {a b : α} : [a, b] <:+: l ↔ (a, b) ∈ l.zip l.tail := by
  rw [pair_infix_iff, List.mem_iff_getElem?]
  simp only [List.getElem?_zip_eq_some, List.getElem?_tail]

/-- neighbours of a sublist -/
theorem pair_infix_filter {q : α → Bool} {a b : α} :
    [a, b] <:+: l.filter q ↔
      ∃ pre mid post, l = pre ++ a :: (mid ++ b :: post) ∧ q a = true ∧ q b = true ∧ ∀ s ∈ mid, q s = false := by
  constructor
  · rintro ⟨pre', post', h⟩
    rw [List.append_assoc, eq_comm, List.filter_eq_append_iff] at h
    obtain ⟨l1, l2, rfl, -, h2⟩ := h
    obtain ⟨p1, rest, rfl, -, ha, hrest⟩ := List.filter_eq_cons_iff.1 h2
    obtain ⟨p2, post, rfl, hmid, hb, -⟩ := List.filter_eq_cons_iff.1 hrest
    exact ⟨l1 ++ p1, p2, post, by simp, ha, hb, fun s hs => by simpa using hmid s hs⟩
  · rintro ⟨pre, mid, post, rfl, ha, hb, hmid⟩
    refine ⟨pre.filter q, post.filter q, ?_⟩
    have hnil : mid.filter q = [] := List.filter_eq_nil_iff.2 fun s hs => by simp [hmid s hs]
    simp [ha, hb, hnil]

theorem mem_between {pre mid post : List α} {a b s : α} (h : Increasing f (pre ++ a :: (mid ++ b :: post))) :
    s ∈ mid ↔ s ∈ pre ++ a :: (mid ++ b :: post) ∧ f a < f s ∧ f s < f b := by
  simp only [Increasing, List.pairwise_append, List.pairwise_cons, List.mem_append, List.mem_cons] at h
  obtain ⟨-, ⟨ha, -, ⟨hb, -⟩, hmid⟩, hpre⟩ := h
  constructor
  · intro hs
    exact ⟨by simp [hs], ha s (Or.inl hs), hmid s hs b (Or.inl rfl)⟩
  · rintro ⟨hs, hlt, hgt⟩
    simp only [List.mem_append, List.mem_cons] at hs
    rcases hs with hs | rfl | hs | rfl | hs
    · exact absurd (hpre s hs a (Or.inl rfl)) (not_lt_of_gt hlt)
    · exact absurd hlt (lt_irrefl _)
    · exact hs
    · exact absurd hgt (lt_irrefl _)
    · exact absurd (hb s hs) (not_lt_of_gt hgt)

/-- between the first and the last of a sequence of values there is a step over every value in between -/
theorem exists_step (f : ℕ → β) {x : β} {d : ℕ} (h0 : f 0 < x) (hd : x < f d) (hne : ∀ k ≤ d, f k ≠ x) :
    ∃ k < d, f k < x ∧ x < f (k + 1) := by
  induction d with
  | zero => exact absurd (h0.trans hd) (lt_irrefl _)
  | succ d ih =>
    rcases lt_or_gt_of_ne (hne d (by omega)) with hlt | hgt
    · exact ⟨d, by omega, hlt, hd⟩
    · obtain ⟨k, hk, hstep⟩ := ih hgt fun k hk => hne k (by omega)
      exact ⟨k, by omega, hstep⟩

/-- between two elements of a strictly ordered list there are neighbours around every value in between -/
theorem exists_pair (h : Increasing f l) {a b : α} {x : β} (ha : a ∈ l) (hb : b ∈ l) (hax : f a < x) (hxb : x < f b)
    (hne : ∀ c ∈ l, f c ≠ x) : ∃ c d, [c, d] <:+: l ∧ f c < x ∧ x < f d ∧ f a ≤ f c ∧ f d ≤ f b := by
  induction l generalizing a with
  | nil => simp at ha
  | cons c l ih =>
    obtain ⟨hc, hl⟩ := List.pairwise_cons.1 h
    cases l with
    | nil =>
      rw [List.mem_singleton.1 ha] at hax
      rw [List.mem_singleton.1 hb] at hxb
      exact absurd (hax.trans hxb) (lt_irrefl _)
    | cons d l =>
      have hd : ∀ e ∈ d :: l, f d ≤ f e := by
        intro e he
        rcases List.mem_cons.1 he with rfl | he
        · exact le_refl _
        · exact ((List.pairwise_cons.1 hl).1 e he).le
      have hcd : f c < f d := hc d List.mem_cons_self
      rcases lt_or_gt_of_ne (hne d (by simp)) with hlt | hgt
      · -- the value is stepped over further back
        have hb' : b ∈ d :: l := by
          rcases List.mem_cons.1 hb with rfl | hb
          · exact absurd (hcd.trans (hlt.trans hxb)) (lt_irrefl _)
          · exact hb
        rcases List.mem_cons.1 ha with rfl | ha
        · obtain ⟨c', d', hinf, h1, h2, h3, h4⟩ :=
            ih hl List.mem_cons_self hb' hlt fun e he => hne e (List.mem_cons_of_mem _ he)
          exact ⟨c', d', hinf.trans (List.suffix_cons _ _).isInfix, h1, h2, hcd.le.trans h3, h4⟩
        · obtain ⟨c', d', hinf, h1, h2, h3, h4⟩ := ih hl ha hb' hax fun e he => hne e (List.mem_cons_of_mem _ he)
          exact ⟨c', d', hinf.trans (List.suffix_cons _ _).isInfix, h1, h2, h3, h4⟩
      · obtain rfl : a = c := by
          rcases List.mem_cons.1 ha with rfl | ha
          · rfl
          · exact absurd ((hgt.trans_le (hd a ha)).trans hax) (lt_irrefl _)
        refine ⟨a, d, ⟨[], l, rfl⟩, hax, hgt, le_refl _, ?_⟩
        rcases List.mem_cons.1 hb with rfl | hb
        · exact absurd (hax.trans hxb) (lt_irrefl _)
        · exact hd b hb

/-! ## Elements of one kind in a row -/

/-- if no two elements with a property are neighbours, the first one after such an element has not got it -/
theorem exists_after (h : Increasing f l) {p : α → Prop} (hchain : l.IsChain fun x y => ¬(p x ∧ p y)) {a b : α}
    (ha : a ∈ l) (hb : b ∈ l) (hpa : p a) (hpb : p b) (hab : f a < f b) :
    ∃ c ∈ l, ¬p c ∧ f a < f c ∧ f c < f b ∧ ∀ d ∈ l, f a < f d → f c ≤ f d := by
  obtain ⟨pre, rest, rfl⟩ := List.append_of_mem ha
  cases rest with
  | nil =>
    rw [Increasing, List.pairwise_append] at h
    rcases List.mem_append.1 hb with hb | hb
    · exact absurd (hab.trans (h.2.2 b hb a (by simp))) (lt_irrefl _)
    · rw [List.mem_singleton.1 hb] at hab
      exact absurd hab (lt_irrefl _)
  | cons c rest =>
    have hpc : ¬p c := fun hpc => List.isChain_iff_forall_rel_of_append_cons_cons.1 hchain rfl ⟨hpa, hpc⟩
    simp only [Increasing, List.pairwise_append, List.pairwise_cons] at h
    obtain ⟨-, ⟨hafter, hc, -⟩, hpre⟩ := h
    have hfirst : ∀ d ∈ pre ++ a :: c :: rest, f a < f d → f c ≤ f d := by
      intro d hd had
      simp only [List.mem_append, List.mem_cons] at hd
      rcases hd with hd | rfl | rfl | hd
      · exact absurd (had.trans (hpre d hd a (by simp))) (lt_irrefl _)
      · exact absurd had (lt_irrefl _)
      · exact le_refl _
      · exact (hc d hd).le
    have hcb : f c ≠ f b := by
      intro heq
      simp only [List.mem_append, List.mem_cons] at hb
      rcases hb with hb | rfl | rfl | hb
      · exact absurd (hab.trans (hpre b hb a (by simp))) (lt_irrefl _)
      · exact absurd hab (lt_irrefl _)
      · exact hpc hpb
      · exact absurd heq (hc b hb).ne
    exact ⟨c, by simp, hpc, hafter c (by simp), lt_of_le_of_ne (hfirst b hb hab) hcb, hfirst⟩

theorem isChain_of_between (h : Increasing f l) {p : α → Prop}
    (hbetween : ∀ a ∈ l, ∀ b ∈ l, p a → p b → f a < f b → ∃ c ∈ l, f a < f c ∧ f c < f b) :
    l.IsChain fun x y => ¬(p x ∧ p y) := by
  rw [List.isChain_iff_forall_rel_of_append_cons_cons]
  rintro a b pre post rfl ⟨ha, hb⟩
  have h' : Increasing f (pre ++ a :: ([] ++ b :: post)) := h
  have hab : f a < f b := (List.pairwise_cons.1 (List.pairwise_append.1 h).2.1).1 b (by simp)
  obtain ⟨c, hc, hac, hcb⟩ := hbetween a (by simp) b (by simp) ha hb hab
  exact absurd ((mem_between h').2 ⟨hc, hac, hcb⟩) (by simp)

/-- the first element has not got a property iff every element that has it comes after one that has not -/
theorem head_iff {R : α → α → Prop} (h : l.Pairwise R) (hasymm : ∀ a b, R a b → ¬R b a) {p : α → Prop} :
    (∀ a ∈ l.head?, ¬p a) ↔ ∀ a ∈ l, p a → ∃ b ∈ l, ¬p b ∧ R b a := by
  cases l with
  | nil => simp
  | cons a l =>
    have hafter := (List.pairwise_cons.1 h).1
    simp only [List.head?_cons, Option.mem_some_iff, forall_eq']
    constructor
    · intro ha b hb hpb
      rcases List.mem_cons.1 hb with rfl | hb
      · exact absurd hpb ha
      · exact ⟨a, by simp, ha, hafter b hb⟩
    · intro hall ha
      obtain ⟨b, hb, -, hba⟩ := hall a (by simp) ha
      rcases List.mem_cons.1 hb with rfl | hb
      · exact hasymm b b hba hba
      · exact hasymm a b (hafter b hb) hba

/-! ## Postponed elements -/

/-- what a relation has after `x` can be put behind all the rest, so `x` can come after every `y` that it does not have
after `x` -/
theorem exists_postponed {f : α → ℤ} {R : α → α → Prop} (hR : ∀ a b, R a b → a ∈ l ∧ b ∈ l ∧ f a < f b) {x y : α}
    (hx : x ∈ l) (hy : y ∈ l) (hxy : ¬Relation.ReflTransGen R x y) :
    ∃ g : α → ℤ, (∀ a b, R a b → g a < g b) ∧ (∀ a ∈ l, ∀ b ∈ l, g a = g b → f a = f b) ∧ g y < g x := by
  classical
  have hfin : (f '' {a | a ∈ l}).Finite := (List.finite_toSet l).image f
  obtain ⟨hi, hhi⟩ := hfin.bddAbove
  obtain ⟨lo, hlo⟩ := hfin.bddBelow
  have hrange : ∀ a ∈ l, lo ≤ f a ∧ f a ≤ hi := fun a ha => ⟨hlo ⟨a, ha, rfl⟩, hhi ⟨a, ha, rfl⟩⟩
  refine ⟨fun a => if Relation.ReflTransGen R x a then f a + (hi - lo + 1) else f a, fun a b hab => ?_,
    fun a ha b hb heq => ?_, ?_⟩
  · obtain ⟨ha, hb, hlt⟩ := hR a b hab
    have hra := hrange a ha
    by_cases h : Relation.ReflTransGen R x a
    · simp only [if_pos h, if_pos (h.tail hab)]
      omega
    · simp only [if_neg h]
      split_ifs <;> omega
  · have hra := hrange a ha
    have hrb := hrange b hb
    dsimp only at heq
    split_ifs at heq <;> omega
  · have hrx := hrange x hx
    have hry := hrange y hy
    simp only [if_pos Relation.ReflTransGen.refl, if_neg hxy]
    omega

end Liss
