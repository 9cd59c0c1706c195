/-
What the placement of locks relies on holds of the threads that `add_thread` keeps.

- `parsed_prepare`: state 1 has no predecessor and every other state a forward one, and the final state is the one that
  state 1 notes.
-/
import Liss.Cfg.Preparation
import Liss.Placement.Discipline

namespace Liss.PlaceLocks

open AbstractCfg

variable {c t m k : AbstractCfg} {fuel : ℕ} {actives : List ℕ}

theorem mem_stateIds {v : ℕ} : v ∈ stateIds c ↔ v ∈ Set.Icc 1 c.noStates := by
  rw [stateIds, List.mem_range'_1, Set.mem_Icc]
  omega

/-- the fields of a state that has been moved -/
theorem compacted_fields (hk : Compacted m actives k) {u : ℕ} (hu : m.Active u) :
    (k.getState (place 1 actives u)).final = (m.getState u).final ∧
      (k.getState (place 1 actives u)).lockBefore = (m.getState u).lockBefore ∧
      (k.getState (place 1 actives u)).lockAfter = (m.getState u).lockAfter ∧
      ((m.getState u).returnState ≠ noState →
        (k.getState (place 1 actives u)).returnState = renumber actives (m.getState u).returnState) := by
  obtain ⟨n, hn, hp⟩ := exists_place hk.ascending ((hk.mem u).2 hu)
  have hmoved : (m.movedState u (1 + n)).final = (m.getState u).final ∧
      (m.movedState u (1 + n)).lockBefore = (m.getState u).lockBefore ∧
      (m.movedState u (1 + n)).lockAfter = (m.getState u).lockAfter := by
    unfold movedState
    split_ifs
    · exact ⟨rfl, rfl, rfl⟩
    · exact ⟨rfl, rfl, rfl⟩
  rw [hp, hk.state n u hn]
  split_ifs with hr
  · exact ⟨hmoved.1, hmoved.2.1, hmoved.2.2, fun h => absurd hr h⟩
  · exact ⟨hmoved.1, hmoved.2.1, hmoved.2.2, fun _ => rfl⟩

theorem writeRound_ended : writeRound.Ended := by
  have hedge : ∀ u v, (∃ e ∈ writeRound.getSuccessors u, e.dst = v) → writeRound.HasEdge u v := fun _ _ h => h
  refine ⟨?_, ?_, rfl, rfl⟩
  · rintro (_ | _ | _ | _ | _ | y)
    iterate 5 decide
    have hfinal : (writeRound.getState (y + 5)).final = false := rfl
    have hexit : (writeRound.getState 1).returnState = 4 := rfl
    rw [hfinal, hexit]
    exact ⟨fun h => absurd h (by decide), fun h => by omega⟩
  · exact (Relation.ReflTransGen.single (hedge 1 2 (by decide))).tail (hedge 2 4 (by decide))

/-- **The threads that are kept.** -/
theorem parsed_prepare (hc : c.Parsed) (hfresh : c.Fresh) (h0 : c.getSuccessors 0 = []) (hend : c.Ended)
    (hall : c.Lossless) (h : c.prepare fuel = some (t, m)) : Parsed t := by
  obtain ⟨t1, h1, h2, -⟩ := prepare_eq_some h
  have hproper := hc.constructed.proper.minimise h1
  have hstart : 1 < t1.states.length := by
    rw [(sameSize_minimise h1).states]
    exact hc.size
  obtain ⟨actives, hk⟩ := compact_spec hproper.ranged hstart h2
  have hcopy := compacted_renumbered hproper hstart hk
  have hone : place 1 actives 1 = 1 := hcopy.start
  have hfirst : t1.Active 1 := .refl
  have hids : ∀ v, v ∈ stateIds t ↔ ∃ u, t1.Active u ∧ place 1 actives u = v := by
    intro v
    rw [mem_stateIds, ← hcopy.bij.image_eq]
    exact Iff.rfl
  -- the fields that `minimise` leaves
  have hfields : ∀ u, (t1.getState u).returnState = (c.getState u).returnState ∧
      (t1.getState u).lockBefore = (c.getState u).lockBefore ∧ (t1.getState u).lockAfter = (c.getState u).lockAfter ∧
      (t1.getState u).final = (c.getState u).final := by
    intro u
    have hs := minimise_state h1 u
    simp only [State.mk.injEq] at hs
    exact ⟨hs.2.2.2.2.1, hs.2.2.2.2.2.1, hs.2.2.2.2.2.2.1, hs.2.2.1⟩
  have hexit : t1.Active (c.getState 1).returnState := by
    rw [active_iff_survives hc.constructed h1]
    refine hall _ hend.reached ?_
    simp [kept, (hend.final _).2 rfl]
  have hexit0 : (c.getState 1).returnState ≠ noState := (hproper.ranged.active hstart hexit).1
  have hreturn : (t.getState 1).returnState = place 1 actives (c.getState 1).returnState := by
    obtain ⟨-, -, -, hr⟩ := compacted_fields hk hfirst
    rw [hone, (hfields 1).1] at hr
    rw [hr hexit0, renumber, if_pos ((hk.mem _).2 hexit)]
  have hlocks : ∀ u, t1.Active u → (c.getState u).lockable = false →
      (t.getState (place 1 actives u)).lockBefore = none ∧ (t.getState (place 1 actives u)).lockAfter = none := by
    intro u hu hlock
    obtain ⟨-, hbefore, hafter, -⟩ := compacted_fields hk hu
    simp only [State.lockable, Bool.or_eq_false_iff, Option.isSome_eq_false_iff, Option.isNone_iff_eq_none] at hlock
    rw [hbefore, hafter, (hfields u).2.1, (hfields u).2.2.1]
    exact hlock
  refine ⟨(hc.fresh_compact hfresh h0 h1 h2).entry, fun v hv hv1 => ?_, (hids 1).2 ⟨1, hfirst, hone⟩, ?_,
    fun v hv => ?_, ?_, ?_⟩
  · obtain ⟨u, hu, rfl⟩ := (hids v).1 hv
    cases hu with
    | refl => exact absurd hone hv1
    | @tail x u hx hxu =>
      obtain ⟨e, he, hb, rfl⟩ := hxu
      have hdst : t1.Active e.dst := hx.tail ⟨e, he, hb, rfl⟩
      obtain ⟨n, hn, hp⟩ := exists_place hk.ascending ((hk.mem x).2 hx)
      refine ⟨place 1 actives x, (hids _).2 ⟨x, hx, rfl⟩, renumberEdge actives (1 + n) e, ?_, ?_, hb⟩
      · rw [hp, hk.edges n x hn]
        exact List.mem_map_of_mem he
      · show renumber actives e.dst = _
        rw [renumber, if_pos ((hk.mem _).2 hdst)]
  · rw [hreturn]
    exact (hids _).2 ⟨_, hexit, rfl⟩
  · obtain ⟨u, hu, rfl⟩ := (hids v).1 hv
    rw [(compacted_fields hk hu).1, (hfields u).2.2.2, hend.final, hreturn]
    exact ⟨fun heq => congrArg _ heq, fun heq => hcopy.bij.injOn hu hexit heq⟩
  · have hfree := hlocks 1 hfirst hend.start
    rwa [hone] at hfree
  · rw [hreturn]
    exact hlocks _ hexit hend.exit

/-- the loop as it is kept -/
theorem writeRound_placed : writeRound.Ended ∧ writeRound.Lossless ∧
    Parsed ((writeRound.prepare 20).get writeRound_prepare).1 := by
  have h := (Option.some_get writeRound_prepare).symm
  exact ⟨writeRound_ended, writeRound_lossless,
    parsed_prepare writeRound_parsed (fresh_of_edges (by decide)) rfl writeRound_ended writeRound_lossless h⟩

end Liss.PlaceLocks
