import QubitReuse.Proofs.Cone.Closure
import QubitReuse.Proofs.LiveSet

namespace QubitReuse

namespace Sweep

variable {s : Sweep}

theorem named_reached_layer {l : Layer} (h : s.reached.Named) : (layer l s).2.reached.Named := by
  induction l generalizing s with
  | nil => exact h
  | cons g gs ih =>
    rw [layer]
    split
    · exact ih (h.foldl_insert g.ends)
    · exact ih h

theorem named_reached_layers {ls : List Layer} (h : s.reached.Named) :
    (layers ls s).2.reached.Named := by
  induction ls with
  | nil => exact h
  | cons l ls ih => exact named_reached_layer ih

end Sweep

namespace Circuit

theorem ancestorWidth_eq_size (c : Circuit) (support : QubitSet) :
    c.ancestorWidth support = (c.pastCone support).qubits.size := by
  apply LiveSet.size_eq_size
  · exact Sweep.named_reached_layers (LiveSet.named_withBound c.bound)
  · intro q
    rw [Sweep.reached_layers_iff, mem_qubits_iff_exists_layer]
    simp only [Sweep.start, LiveSet.contains_withBound, Bool.false_eq_true, false_or,
      Layer.mem_ends, pastCone]

theorem ancestorWidth_le_length {c : Circuit} {support : QubitSet} {qs : List Qubit}
    (h : ∀ l ∈ (c.pastCone support).layers, ∀ q ∈ Layer.ends l, q ∈ qs) :
    c.ancestorWidth support ≤ qs.length := by
  rw [ancestorWidth_eq_size]
  apply (QubitSet.nodup _).length_le_of_subset
  intro q hq
  obtain ⟨l, hl, hql⟩ := mem_qubits_iff_exists_layer.1 hq
  exact h l hl q hql

end Circuit

end QubitReuse
