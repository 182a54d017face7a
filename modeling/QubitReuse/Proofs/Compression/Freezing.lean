import QubitReuse.Proofs.Compression.Totality
import QubitReuse.Proofs.Schedule.Freezing
import QubitReuse.Proofs.Slot.Shape
import QubitReuse.Proofs.Slot.Width

namespace QubitReuse

namespace Schedule

variable {s : Schedule} {out : SlotCircuit}

theorem width_of_assignSlots (h : s.assignSlots = .ok out) : out.width = s.peakLive := by
  obtain ⟨layers, p, hplace, rfl⟩ := exists_place_of_assignSlots h
  calc
    p.opened = p.peak := (sound_of_place (Pool.sound_ofBound s.bound) hplace).peak_eq.symm
    _ = s.peakLive := peak_of_place hplace

theorem total_freeze {w : Layer → Nat} {n : Nat} (hw : ∀ q, w [.release q] = n) (s : Schedule)
    (qs : QubitSet) : (s.freeze qs).total w + n * s.numReleasesIn qs = s.total w := by
  cases s with
  | mk steps =>
  simp only [freeze, numReleasesIn, total, layers]
  induction steps with
  | nil => rfl
  | cons st steps ih =>
    cases hst : st.releasesIn qs with
    | false =>
      rw [List.filter_cons_of_pos (by simp [hst]), List.countP_cons_of_neg (by simp [hst]),
        List.flatMap_cons, List.flatMap_cons, List.map_append, List.map_append, List.sum_append,
        List.sum_append, Nat.add_assoc, ih]
    | true =>
      cases st with
      | block l => cases hst
      | release q =>
        rw [List.filter_cons_of_neg (by simp [hst]), List.countP_cons_of_pos hst, List.flatMap_cons,
          List.map_append, List.sum_append, ← ih, Step.layers, List.map_singleton,
          List.sum_singleton, hw, Nat.mul_succ, ← Nat.add_assoc, Nat.add_comm n]

variable {qs : QubitSet} {out' : SlotCircuit}

theorem depth_freeze (hout : s.assignSlots = .ok out)
    (hout' : (s.freeze qs).assignSlots = .ok out') :
    out'.depth + s.numReleasesIn qs = out.depth := by
  have htotal := total_freeze (w := fun _ => 1) (fun _ => rfl) s qs
  rwa [Nat.one_mul, ← depth_of_assignSlots hout, ← depth_of_assignSlots hout'] at htotal

theorem countP_gates_freeze (hout : s.assignSlots = .ok out)
    (hout' : (s.freeze qs).assignSlots = .ok out') {p : Gate → Bool} {n : Nat}
    (hp : ∀ f g, p (g.map f) = p g) (hn : ∀ q, [Gate.release q].countP p = n) :
    out'.circuit.gates.countP p + n * s.numReleasesIn qs = out.circuit.gates.countP p := by
  rw [countP_gates_of_assignSlots hout hp, countP_gates_of_assignSlots hout' hp]
  exact total_freeze hn s qs

theorem width_freeze (hout : s.assignSlots = .ok out)
    (hout' : (s.freeze qs).assignSlots = .ok out') :
    out.width ≤ out'.width ∧ out'.width ≤ out.width + s.numReleasesIn qs := by
  rw [width_of_assignSlots hout, width_of_assignSlots hout']
  exact ⟨s.peakLive_le_freeze qs, s.peakLive_freeze_le qs⟩

end Schedule

namespace Circuit

open Compression

variable {c : Circuit}

theorem compress_of_rearrange (hloop : ∀ g ∈ c.gates, ¬ g.IsLoop)
    (hid : ∀ q ∈ c.qubits, q.index < UInt32.size - 1) {frozen : QubitSet} {config : Config}
    {s : Schedule} (hs : c.rearrange frozen config.tieBreak = .ok s) :
    ∃ out, s.assignSlots = .ok out ∧ c.compress frozen config = .ok (.of c s out) := by
  have ⟨rs, _, hex, hs'⟩ := c.exists_rearrange frozen config.tieBreak
  cases hs.symm.trans hs'
  have ⟨out, hout⟩ := Schedule.exists_assignSlots (hex.bound_lt hid frozen) hex.releasesLive
  refine ⟨out, hout, ?_⟩
  rw [compress_eq hloop]
  exact compressReduced_eq_ok hex hs hout

/-- Of two sets of frozen qubits the larger one only takes releases out. -/
theorem freezing_more_removes_releases (hloop : ∀ g ∈ c.gates, ¬ g.IsLoop)
    (hid : ∀ q ∈ c.qubits, q.index < UInt32.size - 1) {frozen frozen' : QubitSet}
    (hsub : frozen ⊆ frozen') (t : TieBreak) :
    ∃ s, c.rearrange frozen t = .ok s ∧ c.rearrange frozen' t = .ok (s.freeze frozen') ∧
      ∀ config, config.tieBreak = t → ∃ r r',
        c.compress frozen config = .ok r ∧ c.compress frozen' config = .ok r' ∧
        r'.gates = r.gates ∧
        r'.depth + s.numReleasesIn frozen' = r.depth ∧
        r'.releases + s.numReleasesIn frozen' = r.releases ∧
        r.width ≤ r'.width ∧ r'.width ≤ r.width + s.numReleasesIn frozen' := by
  have ⟨_, _, _, hs⟩ := c.exists_rearrange frozen t
  have hs' := rearrange_freeze hsub hs
  refine ⟨_, hs, hs', ?_⟩
  rintro config rfl
  have ⟨out, hout, hr⟩ := compress_of_rearrange hloop hid hs
  have ⟨out', hout', hr'⟩ := compress_of_rearrange hloop hid hs'
  have hgates := Schedule.countP_gates_freeze hout hout' Gate.isPair_map fun _ => rfl
  have hreleases := Schedule.countP_gates_freeze hout hout' Gate.isRelease_map fun _ => rfl
  rw [Nat.zero_mul, Nat.add_zero] at hgates
  rw [Nat.one_mul] at hreleases
  exact ⟨_, _, hr, hr', hgates, Schedule.depth_freeze hout hout', hreleases,
    Schedule.width_freeze hout hout'⟩

theorem freezing_more_removes_releases_pairs :
    ∃ s r r', rearrange ⟨[[.pair ⟨0⟩ ⟨1⟩], [.pair ⟨2⟩ ⟨3⟩]]⟩ .empty .lowestId = .ok s ∧
      rearrange ⟨[[.pair ⟨0⟩ ⟨1⟩], [.pair ⟨2⟩ ⟨3⟩]]⟩ (.single ⟨0⟩) .lowestId =
        .ok (s.freeze (.single ⟨0⟩)) ∧
      compress ⟨[[.pair ⟨0⟩ ⟨1⟩], [.pair ⟨2⟩ ⟨3⟩]]⟩ .empty = .ok r ∧
      compress ⟨[[.pair ⟨0⟩ ⟨1⟩], [.pair ⟨2⟩ ⟨3⟩]]⟩ (.single ⟨0⟩) = .ok r' ∧
      r'.gates = r.gates ∧
      r'.depth + s.numReleasesIn (.single ⟨0⟩) = r.depth ∧
      r'.releases + s.numReleasesIn (.single ⟨0⟩) = r.releases ∧
      r.width ≤ r'.width ∧ r'.width ≤ r.width + s.numReleasesIn (.single ⟨0⟩) := by
  have hid : ∀ q ∈ (qubits ⟨[[.pair ⟨0⟩ ⟨1⟩], [.pair ⟨2⟩ ⟨3⟩]]⟩).toList,
      q.index < UInt32.size - 1 := by
    decide
  have hsub : QubitSet.empty ⊆ QubitSet.single ⟨0⟩ := nofun
  have ⟨s, hs, hs', hcosts⟩ := freezing_more_removes_releases
    (c := ⟨[[.pair ⟨0⟩ ⟨1⟩], [.pair ⟨2⟩ ⟨3⟩]]⟩) (by decide) hid hsub .lowestId
  have ⟨r, r', hr, hr', hreports⟩ := hcosts {} rfl
  exact ⟨s, r, r', hs, hs', hr, hr', hreports⟩

end Circuit

end QubitReuse
