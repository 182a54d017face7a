import Mathlib.Data.List.Nodup
import Mathlib.Logic.Equiv.Fin.Basic
import QubitReuse.Proofs.Schedule.Linearisation

namespace QubitReuse.Schedule

variable {s : Schedule} {c : Circuit}

/-- Each gate runs where the bijection puts it, and gates of different layers that share a qubit run
in the order of their layers. -/
structure RunsAt (s : Schedule) (c : Circuit)
    (e : Fin c.layeredGates.length ≃ Fin s.gates.length) : Prop where
  alike : ∀ k : Fin c.layeredGates.length, (c.layeredGates.get k).2.Alike (s.gates.get (e k))
  earlier : ∀ j k : Fin c.layeredGates.length, (c.layeredGates.get j).1 < (c.layeredGates.get k).1 →
    (∃ q, (c.layeredGates.get j).2.Touches q ∧ (c.layeredGates.get k).2.Touches q) → e j < e k

theorem RunsAt.numGates_eq {e : Fin c.layeredGates.length ≃ Fin s.gates.length}
    (_ : s.RunsAt c e) : c.numGates = s.gates.length := by
  rw [Circuit.numGates, ← Circuit.map_snd_layeredGates, List.length_map]
  exact Fin.equiv_iff_eq.1 ⟨e⟩

theorem Linearises.exists_runsAt (h : s.Linearises c) : ∃ e, s.RunsAt c e := by
  have ⟨order, hperm, hmap, hpair⟩ := h
  have hlen : order.length = s.gates.length := by
    rw [← List.length_map (·.2.unoriented), hmap, List.length_map]
  let e : Fin c.layeredGates.length ≃ Fin order.length :=
    ⟨hperm.symm.idxBij, hperm.idxBij, fun _ => hperm.idxBij_idxBij_symm,
      fun _ => hperm.idxBij_symm_idxBij⟩
  have he : ∀ k, order.get (e k) = c.layeredGates.get k := fun k => hperm.symm.getElem_idxBij_eq_getElem k
  refine ⟨e.trans (finCongr hlen), ?_, ?_⟩
  · intro k
    have h := List.getElem_of_eq hmap (i := e k) (by simp)
    rw [List.getElem_map, List.getElem_map] at h
    exact (congrArg (·.2.unoriented) (he k)).symm.trans h
  · intro j k hlt hq
    refine Nat.lt_of_not_le fun hle => ?_
    cases Nat.eq_or_lt_of_le hle with
    | inl heq =>
      have hkj : k = j := e.injective (Fin.ext heq)
      exact Nat.lt_irrefl _ (hkj ▸ hlt)
    | inr hgt =>
      have h := List.pairwise_iff_getElem.1 hpair (e k) (e j) (e k).2 (e j).2 hgt
      change InLayerOrder (order.get (e k)) (order.get (e j)) at h
      rw [he, he] at h
      have ⟨q, hj, hk⟩ := hq
      exact Nat.not_le.2 hlt (h ⟨q, hk, hj⟩)

theorem RunsAt.linearises {e : Fin c.layeredGates.length ≃ Fin s.gates.length}
    (h : s.RunsAt c e) : s.Linearises c := by
  refine ⟨(List.finRange s.gates.length).map fun i => c.layeredGates.get (e.symm i), ?_, ?_, ?_⟩
  · have hperm : ((List.finRange s.gates.length).map e.symm).Perm
        (List.finRange c.layeredGates.length) := by
      apply (List.perm_ext_iff_of_nodup _ (List.nodup_finRange _)).2
      · intro k
        exact iff_of_true (List.mem_map.2 ⟨e k, List.mem_finRange _, e.symm_apply_apply k⟩)
          (List.mem_finRange k)
      · exact List.Nodup.map e.symm.injective (List.nodup_finRange _)
    have hmap := hperm.map c.layeredGates.get
    rwa [List.map_get_finRange, List.map_map] at hmap
  · rw [List.map_map]
    conv_rhs => rw [← List.map_get_finRange s.gates, List.map_map]
    apply List.map_congr_left
    intro i _
    have ha := h.alike (e.symm i)
    rw [e.apply_symm_apply] at ha
    exact ha
  · apply List.pairwise_map.2
    apply (List.pairwise_lt_finRange _).imp
    intro i j hij ⟨q, hi, hj⟩
    refine Nat.le_of_not_lt fun hlt => ?_
    have hji := h.earlier _ _ hlt ⟨q, hj, hi⟩
    rw [e.apply_symm_apply, e.apply_symm_apply] at hji
    exact Nat.lt_asymm hij hji

theorem checkOrder_accepts_iff_exists_runsAt (s : Schedule) (c : Circuit) :
    ((∃ r, s.checkOrder c = .ok r) ↔ (∃ e, s.RunsAt c e) ∧ s.RestsAfterRelease) ∧
      ∀ r, s.checkOrder c = .ok r → r.passed = true ∧ r.qubitsChecked = c.qubits.size ∧
        r.gatesChecked = c.numGates ∧ c.numGates = s.gates.length ∧
        r.releasesFound = s.numReleases := by
  constructor
  · constructor
    · intro ⟨r, hr⟩
      have ⟨hlin, hrest, _⟩ := checkOrder_eq_ok_iff.1 hr
      exact ⟨hlin.exists_runsAt, hrest⟩
    · intro ⟨⟨e, he⟩, hrest⟩
      exact ⟨_, checkOrder_eq_ok_iff.2 ⟨he.linearises, hrest, rfl⟩⟩
  · intro r hr
    have ⟨hlin, _, hreport⟩ := checkOrder_eq_ok_iff.1 hr
    have ⟨e, he⟩ := hlin.exists_runsAt
    rw [hreport]
    exact ⟨rfl, rfl, rfl, he.numGates_eq, rfl⟩

end QubitReuse.Schedule
