import QubitReuse.Proofs.Cone.Width
import QubitReuse.Proofs.Schedule.Selection

namespace QubitReuse

namespace Circuit

variable {c rest : Circuit} {t : TieBreak} {q : Qubit} {w : Nat}

def coneWidth (c : Circuit) (q : Qubit) : Nat := (c.pastCone (.single q)).qubits.size

structure Shrinks (c : Circuit) (q : Qubit) (rest : Circuit) : Prop where
  gone : q ∉ rest.qubits
  qubits_subset : rest.qubits ⊆ c.qubits
  numGates_lt : rest.numGates < c.numGates

theorem exists_mem_qubits (hc : c.gates ≠ []) : ∃ q, q ∈ c.qubits := by
  obtain ⟨g, hg⟩ := List.exists_mem_of_ne_nil _ hc
  obtain ⟨q, hq⟩ := g.exists_touches
  exact ⟨q, mem_qubits.2 ⟨g, hg, hq⟩⟩

theorem coneWidth_pos (hq : q ∈ c.qubits) : 0 < c.coneWidth q := by
  rw [coneWidth, ← ancestorWidth_eq_size]
  exact ancestorWidth_pos hq (QubitSet.mem_single.2 rfl)

theorem chooses_coneWidth (h : c.narrowest t = some (q, w)) :
    t.Chooses c.coneWidth c.qubits.toList q ∧ w = c.coneWidth q := by
  have hwidth : (fun q => c.ancestorWidth (.single q)) = c.coneWidth :=
    funext fun q => ancestorWidth_eq_size c (.single q)
  have hchooses := narrowest_eq_some_iff.1 h
  rwa [hwidth, ancestorWidth_eq_size] at hchooses

theorem shrinks_of_subtract (hq : q ∈ c.qubits)
    (h : c.subtract (c.pastCone (.single q)) = .ok rest) : c.Shrinks q rest := by
  constructor
  case gone => exact fun hrest => (mem_qubits_of_subtract h hrest).2 rfl
  case qubits_subset => exact fun p hp => (mem_qubits_of_subtract h hp).1
  case numGates_lt =>
    exact numGates_subtract_pastCone_lt (ancestorWidth_pos hq (QubitSet.mem_single.2 rfl)) h

theorem Exhausts.length_le_numGates {rs : List Retirement} (h : c.Exhausts rs) :
    rs.length ≤ c.numGates := by
  induction h with
  | idle => exact Nat.zero_le _
  | retire hq hs _ ih => exact Nat.lt_of_le_of_lt ih (shrinks_of_subtract hq hs).numGates_lt

theorem round_makes_progress (t : TieBreak) (hc : c.gates ≠ []) : ∃ q w rest,
    c.narrowest t = some (q, w) ∧ t.Chooses c.coneWidth c.qubits.toList q ∧
    w = c.coneWidth q ∧ 1 ≤ w ∧
    (c.pastCone (.single q)).layers.map (touching q) = c.layers.map (touching q) ∧
    c.subtract (c.pastCone (.single q)) = .ok rest ∧ c.Shrinks q rest ∧
    ∃ rs, rest.retirements t = .ok rs ∧ rs.length ≤ rest.numGates ∧
      c.retirements t = .ok (⟨q, c.pastCone (.single q)⟩ :: rs) := by
  obtain ⟨p, hp⟩ := exists_mem_qubits hc
  obtain ⟨q, w, hn⟩ := exists_narrowest t hp
  obtain ⟨hchooses, rfl⟩ := chooses_coneWidth hn
  have hpos := coneWidth_pos hchooses.mem
  obtain ⟨n, hw⟩ := Nat.exists_eq_add_one_of_ne_zero (Nat.ne_of_gt hpos)
  obtain ⟨rest, hs⟩ : ∃ rest, c.subtract (c.pastCone (.single q)) = .ok rest :=
    ⟨_, c.subtract_pastCone (.single q)⟩
  obtain ⟨rs, hrs, hex⟩ := exists_exhausts t rest
  have hall := touching_pastCone (c := c) (QubitSet.mem_single.2 (Eq.refl q))
  have hrun := retirements_of_some (hw ▸ hn) hs
  rw [hrs] at hrun
  exact ⟨q, _, rest, hn, hchooses, rfl, hpos, hall, hs, shrinks_of_subtract hchooses.mem hs, rs,
    hrs, hex.length_le_numGates, hrun⟩

/-- All four cones are two qubits wide, and of a gate that is stored twice both copies go. -/
theorem round_makes_progress_tied : ∃ c : Circuit,
    c.layers = [[.pair ⟨0⟩ ⟨1⟩, .pair ⟨1⟩ ⟨0⟩], [.pair ⟨2⟩ ⟨3⟩]] ∧
    (∃ rest, c.narrowest .lowestId = some (⟨0⟩, 2) ∧ c.Shrinks ⟨0⟩ rest ∧
      c.subtract (c.pastCone (.single ⟨0⟩)) = .ok rest ∧ rest.layers = [[], [.pair ⟨2⟩ ⟨3⟩]]) ∧
    ∃ rest, c.narrowest .highestId = some (⟨3⟩, 2) ∧ c.Shrinks ⟨3⟩ rest := by
  refine ⟨⟨[[.pair ⟨0⟩ ⟨1⟩, .pair ⟨1⟩ ⟨0⟩], [.pair ⟨2⟩ ⟨3⟩]]⟩, rfl, ?_, ?_⟩
  · obtain ⟨q, w, rest, hn, -, -, -, -, hs, hshrinks, -⟩ := round_makes_progress .lowestId
      (c := ⟨[[.pair ⟨0⟩ ⟨1⟩, .pair ⟨1⟩ ⟨0⟩], [.pair ⟨2⟩ ⟨3⟩]]⟩) (List.cons_ne_nil _ _)
    have hlowest : some (⟨0⟩, 2) = some (q, w) := Eq.trans (by decide) hn
    cases hlowest
    refine ⟨rest, hn, hshrinks, hs, ?_⟩
    cases hs
    decide
  · obtain ⟨q, w, rest, hn, -, -, -, -, -, hshrinks, -⟩ := round_makes_progress .highestId
      (c := ⟨[[.pair ⟨0⟩ ⟨1⟩, .pair ⟨1⟩ ⟨0⟩], [.pair ⟨2⟩ ⟨3⟩]]⟩) (List.cons_ne_nil _ _)
    have hhighest : some (⟨3⟩, 2) = some (q, w) := Eq.trans (by decide) hn
    cases hhighest
    exact ⟨rest, hn, hshrinks⟩

end Circuit

end QubitReuse
