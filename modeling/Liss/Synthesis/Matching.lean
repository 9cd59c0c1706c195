/-
What `find_lock_locs` finds in the symbols of a thread.

A match is a run of consecutive symbols of the thread that equal consecutive symbols of the list. A symbol that was
matched once is used, and no match starts there again.

- `scanList_sound`: all that is found are matches;
- `scanList_complete`: when no symbol of the thread occurs twice in the list, every pair of neighbours is inside a match
  that is found.
-/
import Liss.Synthesis.Reorderings

namespace Liss.Synthesis

/-- the symbols of the thread from `i` to `i + d` equal those of the list from its head on -/
def Matches (thread list : List Symbol) (i d : ℕ) : Prop :=
  ∀ k ≤ d, ∃ x y, thread[i + k]? = some x ∧ list[k]? = some y ∧ x.equals y = true

/-- no symbol occurs twice -/
def Distinct (list : List Symbol) : Prop := list.Pairwise fun x y => x.equals y = false

instance (list : List Symbol) : Decidable (Distinct list) := inferInstanceAs (Decidable (List.Pairwise _ _))

/-- no symbol of the thread occurs twice in the list -/
def Once (thread list : List Symbol) : Prop :=
  ∀ x ∈ thread, ∀ (m n : ℕ) (y z : Symbol), list[m]? = some y → list[n]? = some z →
    x.equals y = true → x.equals z = true →
    m = n

variable {thread : List Symbol} {itsy : Symbol} {rest : List Symbol}

/-! ## One match -/

theorem matchLength_matches (ss ys : List Symbol) {k : ℕ} (hk : k < matchLength ss ys) :
    ∃ x y, ss[k]? = some x ∧ ys[k]? = some y ∧ x.equals y = true := by
  induction ss generalizing ys k with
  | nil => simp [matchLength] at hk
  | cons s ss ih =>
    cases ys with
    | nil => simp [matchLength] at hk
    | cons y ys =>
      rw [matchLength] at hk
      split_ifs at hk with heq
      · cases k with
        | zero => exact ⟨s, y, rfl, rfl, heq⟩
        | succ k => simpa using ih ys (Nat.lt_of_succ_lt_succ hk)
      · omega

/-- the match goes on as long as it can -/
theorem le_matchLength (ss ys : List Symbol) {k : ℕ}
    (h : ∀ j < k, ∃ x y, ss[j]? = some x ∧ ys[j]? = some y ∧ x.equals y = true) : k ≤ matchLength ss ys := by
  induction ss generalizing ys k with
  | nil =>
    cases k with
    | zero => omega
    | succ k => simpa using h 0 (by omega)
  | cons s ss ih =>
    cases k with
    | zero => omega
    | succ k =>
      cases ys with
      | nil => simpa using h 0 (by omega)
      | cons y ys =>
        have h0 : s.equals y = true := by simpa using h 0 (by omega)
        rw [matchLength, if_pos h0]
        exact Nat.succ_le_succ (ih ys fun j hj => by simpa using h (j + 1) (by omega))

theorem matches_of_start {i : ℕ} {s : Symbol} (hs : thread[i]? = some s) (heq : s.equals itsy = true) :
    Matches thread (itsy :: rest) i (matchLength (thread.drop (i + 1)) rest) := by
  intro k hk
  cases k with
  | zero => exact ⟨s, itsy, by simpa using hs, rfl, heq⟩
  | succ k =>
    obtain ⟨x, y, hx, hy, hxy⟩ := matchLength_matches _ _ (Nat.lt_of_succ_le hk)
    refine ⟨x, y, ?_, by simpa using hy, hxy⟩
    rw [List.getElem?_drop] at hx
    rw [← hx]
    congr 1
    omega

theorem le_of_matches {i d : ℕ} (h : Matches thread (itsy :: rest) i d) :
    d ≤ matchLength (thread.drop (i + 1)) rest := by
  apply le_matchLength _ _
  intro j hj
  obtain ⟨x, y, hx, hy, hxy⟩ := h (j + 1) (by omega)
  refine ⟨x, y, ?_, by simpa using hy, hxy⟩
  rw [List.getElem?_drop, ← hx]
  congr 1
  omega

theorem Matches.mono {list : List Symbol} {i d d' : ℕ} (h : Matches thread list i d) (hd : d' ≤ d) :
    Matches thread list i d' := fun k hk => h k (hk.trans hd)

/-! ## The inner loop -/

/-- every result of the inner loop is an old one or a match -/
theorem scanMatches_sound {fuel i : ℕ} {used : ℕ → Bool} {result : List (ℕ × ℕ)} {ie : ℕ × ℕ}
    (h : ie ∈ (scanMatches thread itsy rest fuel i used result).2) :
    ie ∈ result ∨ ∃ d, 0 < d ∧ ie.2 = ie.1 + d ∧ Matches thread (itsy :: rest) ie.1 d := by
  induction fuel generalizing i used result with
  | zero => exact Or.inl h
  | succ fuel ih =>
    rw [scanMatches] at h
    split at h
    · exact Or.inl h
    · rename_i s hs
      split_ifs at h with hc
      · rcases ih h with hr | hr
        · split_ifs at hr with hk
          · exact Or.inl hr
          · rcases List.mem_append.1 hr with hr | hr
            · exact Or.inl hr
            · rw [List.mem_singleton.1 hr]
              simp only [Bool.and_eq_true] at hc
              exact Or.inr ⟨_, Nat.pos_of_ne_zero hk, rfl, matches_of_start hs hc.1⟩
        · exact Or.inr hr
      · exact ih h

theorem scanMatches_mono {fuel i : ℕ} {used : ℕ → Bool} {result : List (ℕ × ℕ)} {ie : ℕ × ℕ} (h : ie ∈ result) :
    ie ∈ (scanMatches thread itsy rest fuel i used result).2 := by
  induction fuel generalizing i used result with
  | zero => exact h
  | succ fuel ih =>
    rw [scanMatches]
    split
    · exact h
    · split_ifs
      · apply ih
        split_ifs
        · exact h
        · exact List.mem_append_left _ h
      · exact ih h

theorem markUsed_eq_false {used : ℕ → Bool} {i k j : ℕ} (hu : used j = false) (h : j < i ∨ i + k < j) :
    markUsed used i k j = false := by
  simp only [markUsed, hu, Bool.false_or, Bool.and_eq_false_iff, decide_eq_false_iff_not]
  omega

/-- a position that no match of the list contains stays unused -/
theorem scanMatches_unused {p fuel i : ℕ} {used : ℕ → Bool} {result : List (ℕ × ℕ)} (hu : used p = false)
    (hp : ∀ j d, Matches thread (itsy :: rest) j d → j + d ≠ p) :
    (scanMatches thread itsy rest fuel i used result).1 p = false := by
  induction fuel generalizing i used result with
  | zero => exact hu
  | succ fuel ih =>
    rw [scanMatches]
    split
    · exact hu
    · rename_i s hs
      split_ifs with hc
      · refine ih (markUsed_eq_false hu ?_)
        simp only [Bool.and_eq_true] at hc
        have hm : Matches thread (itsy :: rest) i (matchLength (thread.drop (i + 1)) rest) :=
          matches_of_start hs hc.1
        by_contra hno
        exact hp i (p - i) (hm.mono (by omega)) (by omega)
      · exact ih hu

/-- an unused position where matches only start is found -/
theorem scanMatches_start {p d fuel i : ℕ} {used : ℕ → Bool} {result : List (ℕ × ℕ)} (hu : used p = false) (hi : i ≤ p)
    (hfuel : thread.length ≤ fuel + i) (hd : 0 < d) (hm : Matches thread (itsy :: rest) p d)
    (hp : ∀ j d, Matches thread (itsy :: rest) j d → j + d = p → d = 0) :
    ∃ e, p + d ≤ e ∧ (p, e) ∈ (scanMatches thread itsy rest fuel i used result).2 := by
  obtain ⟨sp, y, hsp, hy, heq⟩ := hm 0 (by omega)
  rw [Nat.add_zero] at hsp
  obtain rfl : itsy = y := by simpa using hy
  have hlt : p < thread.length := (List.getElem?_eq_some_iff.1 hsp).1
  induction fuel generalizing i used result with
  | zero => omega
  | succ fuel ih =>
    rw [scanMatches]
    split
    · rename_i hnone
      rw [List.getElem?_eq_none_iff] at hnone
      omega
    · rename_i s hs
      rcases Nat.lt_or_ge i p with hlt' | hge
      · split_ifs with hc
        · simp only [Bool.and_eq_true] at hc
          -- a match that starts before `p` ends before `p`
          have hend : i + matchLength (thread.drop (i + 1)) rest < p := by
            by_contra hno
            have := hp i (p - i) ((matches_of_start hs hc.1).mono (by omega)) (by omega)
            omega
          exact ih (markUsed_eq_false hu (Or.inr hend)) (by omega) (by omega)
        · exact ih hu (by omega) (by omega)
      · obtain rfl : i = p := by omega
        obtain rfl : sp = s := by simpa [hsp] using hs
        have hlen := le_of_matches hm
        rw [if_pos (by simp [heq, hu])]
        refine ⟨_, Nat.add_le_add_left hlen i, scanMatches_mono ?_⟩
        rw [if_neg (by omega)]
        exact List.mem_append_right _ (List.mem_singleton_self _)

/-! ## The outer loop -/

theorem scanList_mono {list : List Symbol} {used : ℕ → Bool} {result : List (ℕ × ℕ)} {ie : ℕ × ℕ} (h : ie ∈ result) :
    ie ∈ scanList thread list used result := by
  induction list generalizing used result with
  | nil => exact h
  | cons itsy rest ih => exact ih (scanMatches_mono h)

/-- **All that is found are matches** of a part of the list. -/
theorem scanList_sound {list : List Symbol} {used : ℕ → Bool} {result : List (ℕ × ℕ)} {ie : ℕ × ℕ}
    (h : ie ∈ scanList thread list used result) :
    ie ∈ result ∨ ∃ d suffix, 0 < d ∧ ie.2 = ie.1 + d ∧ suffix <:+ list ∧ Matches thread suffix ie.1 d := by
  induction list generalizing used result with
  | nil => exact Or.inl h
  | cons itsy rest ih =>
    rcases ih h with hr | ⟨d, suffix, hd, he, hsuf, hm⟩
    · rcases scanMatches_sound hr with hr | ⟨d, hd, he, hm⟩
      · exact Or.inl hr
      · exact Or.inr ⟨d, _, hd, he, List.suffix_rfl, hm⟩
    · exact Or.inr ⟨d, suffix, hd, he, hsuf.trans (List.suffix_cons _ _), hm⟩

theorem Distinct.once {list : List Symbol} (h : Distinct list) (thread : List Symbol) : Once thread list := by
  intro x _ m n y z hy hz hxy hxz
  have hyz : y.equals z = true := Symbol.equals_trans (Symbol.equals_symm hxy) hxz
  obtain ⟨hm, rfl⟩ := List.getElem?_eq_some_iff.1 hy
  obtain ⟨hn, rfl⟩ := List.getElem?_eq_some_iff.1 hz
  rcases Nat.lt_trichotomy m n with hlt | heq | hgt
  · have := List.pairwise_iff_getElem.1 h m n hm hn hlt
    simp [hyz] at this
  · exact heq
  · have := List.pairwise_iff_getElem.1 h n m hn hm hgt
    simp [Symbol.equals_symm hyz] at this

/-- the matches of a later part of the list that meet place `p` of the thread meet one place of the list -/
theorem Once.meet {list : List Symbol} (honce : Once thread list) {p n : ℕ} {s y : Symbol} (hs : thread[p]? = some s)
    (hy : list[n]? = some y) (heq : s.equals y = true) {done ys : List Symbol} (hl : list = done ++ ys) {j k : ℕ}
    (hk : Matches thread ys j k) (hjk : j + k = p) : done.length + k = n := by
  obtain ⟨x, z, hx, hz, hxz⟩ := hk k (by omega)
  rw [hjk, hs, Option.some.injEq] at hx
  subst hx
  have hz' : list[done.length + k]? = some z := by
    rw [hl, List.getElem?_append_right (by omega)]
    simpa using hz
  exact honce s (List.mem_of_getElem? hs) _ _ _ _ hz' hy hxz heq

/-- a match of the list behind `pre` that cannot be extended to the front is found -/
theorem scanList_start {list pre suffix : List Symbol} (hlist : list = pre ++ suffix) (honce : Once thread list)
    {p d : ℕ} (hd : 0 < d) (hm : Matches thread suffix p d)
    (hfront : ∀ x y : Symbol, 0 < p → 0 < pre.length → thread[p - 1]? = some x → list[pre.length - 1]? = some y →
      x.equals y = false)
    {used : ℕ → Bool} {result : List (ℕ × ℕ)} (hu : used p = false) :
    ∃ e, p + d ≤ e ∧ (p, e) ∈ scanList thread list used result := by
  obtain ⟨sp, y, hsp, hy, heq⟩ := hm 0 (by omega)
  rw [Nat.add_zero] at hsp
  have hy' : list[pre.length]? = some y := by
    rw [hlist, List.getElem?_append_right (by omega)]
    simpa using hy
  have hgen : ∀ (ys done : List Symbol), list = done ++ ys → done.length ≤ pre.length →
      ∀ (used : ℕ → Bool) (result : List (ℕ × ℕ)), used p = false →
        ∃ e, p + d ≤ e ∧ (p, e) ∈ scanList thread ys used result := by
    intro ys
    induction ys with
    | nil =>
      intro done hl hle
      have hne : suffix ≠ [] := by
        rintro rfl
        simp at hy
      have hlen := congrArg List.length (hl.symm.trans hlist)
      have hpos := List.length_pos_of_ne_nil hne
      simp only [List.append_nil, List.length_append] at hlen
      omega
    | cons itsy rest ih =>
      intro done hl hle used result hu
      rcases Nat.lt_or_ge done.length pre.length with hlt | hge
      · have hl' : list = (done ++ [itsy]) ++ rest := by simp [hl]
        refine ih (done ++ [itsy]) hl' (by simp; omega) _ _ (scanMatches_unused hu fun j k hk hjk => ?_)
        -- a match through `p` has the symbols before `p` match as well
        have hk' := honce.meet hsp hy' heq hl hk hjk
        obtain ⟨x, z, hx, hz, hxz⟩ := hk (k - 1) (by omega)
        have hz' : list[pre.length - 1]? = some z := by
          rw [hl, List.getElem?_append_right (by omega), ← hz]
          congr 1
          omega
        have hx' : thread[p - 1]? = some x := by
          rw [← hx]
          congr 1
          omega
        have hno := hfront x z (by omega) (by omega) hx' hz'
        simp [hxz] at hno
      · have hlen : done.length = pre.length := by omega
        obtain ⟨rfl, hsuf⟩ := List.append_inj (hl.symm.trans hlist) hlen
        rw [← hsuf] at hm
        have hstart : ∃ e, p + d ≤ e ∧ (p, e) ∈ (scanMatches thread itsy rest thread.length 0 used result).2 :=
          scanMatches_start hu (Nat.zero_le p) (by omega) hd hm fun j k hk hjk => by
            have hk' := honce.meet hsp hy' heq hl hk hjk
            omega
        obtain ⟨e, he, hmem⟩ := hstart
        exact ⟨e, he, by rw [scanList]; exact scanList_mono hmem⟩
  exact hgen list [] rfl (Nat.zero_le _) used result hu

/-- **Every pair of neighbours is inside a match that is found**, when no symbol of the thread is twice in the list. -/
theorem scanList_complete {list : List Symbol} (honce : Once thread list) {k q : ℕ} {x x' y y' : Symbol}
    (hx : thread[k]? = some x) (hx' : thread[k + 1]? = some x') (hy : list[q]? = some y) (hy' : list[q + 1]? = some y')
    (hxy : x.equals y = true) (hxy' : x'.equals y' = true) :
    ∃ i e, i ≤ k ∧ k + 1 ≤ e ∧ (i, e) ∈ scanList thread list (fun _ => false) [] := by
  -- the match is followed to the front as far as it goes
  let Back : ℕ → Prop := fun r => r ≤ k ∧ r ≤ q ∧ Matches thread (list.drop (q - r)) (k - r) (r + 1)
  have hback0 : Back 0 := by
    refine ⟨Nat.zero_le _, Nat.zero_le _, fun j hj => ?_⟩
    rcases (by omega : j = 0 ∨ j = 1) with rfl | rfl
    · exact ⟨x, y, by simpa using hx, by simpa [List.getElem?_drop] using hy, hxy⟩
    · exact ⟨x', y', by simpa using hx', by simpa [List.getElem?_drop] using hy', hxy'⟩
  obtain ⟨r, ⟨hrk, hrq, hm⟩, hmax⟩ : ∃ r, Back r ∧ ¬Back (r + 1) := by
    by_contra hno
    push Not at hno
    have hall : ∀ r, Back r := fun r => Nat.rec hback0 (fun r ih => hno r ih) r
    have := (hall (k + 1)).1
    omega
  have hq : q < list.length := (List.getElem?_eq_some_iff.1 hy).1
  have hlen : (list.take (q - r)).length = q - r := by
    rw [List.length_take]
    omega
  have hfront : ∀ z z' : Symbol, 0 < k - r → 0 < (list.take (q - r)).length → thread[k - r - 1]? = some z →
      list[(list.take (q - r)).length - 1]? = some z' → z.equals z' = false := by
    intro z z' hp hpre hz hz'
    rw [hlen] at hpre hz'
    by_contra hne
    have hzz : z.equals z' = true := by simpa using hne
    refine hmax ⟨by omega, by omega, fun j hj => ?_⟩
    cases j with
    | zero => exact ⟨z, z', by rw [← hz]; rfl, by rw [List.getElem?_drop, ← hz']; rfl, hzz⟩
    | succ j =>
      obtain ⟨u, v, hu, hv, huv⟩ := hm j (by omega)
      rw [List.getElem?_drop] at hv
      refine ⟨u, v, ?_, ?_, huv⟩
      · rw [← hu]
        congr 1
        omega
      · rw [List.getElem?_drop, ← hv]
        congr 1
        omega
  have hstart : ∃ e, k - r + (r + 1) ≤ e ∧ (k - r, e) ∈ scanList thread list (fun _ => false) [] :=
    scanList_start (list.take_append_drop (q - r)).symm honce (Nat.succ_pos r) hm hfront rfl
  obtain ⟨e, he, hmem⟩ := hstart
  exact ⟨k - r, e, by omega, by omega, hmem⟩

end Liss.Synthesis
