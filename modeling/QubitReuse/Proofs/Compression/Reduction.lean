import QubitReuse.Proofs.Compression.Totality
import QubitReuse.Proofs.Cone.Algebra

namespace QubitReuse.Circuit

variable {c : Circuit} {s : QubitSet} {config : Compression.Config} {r : Compression.Report}

theorem reduced_of_compressCone (h : c.compressCone s config = .ok r) :
    r.reduced = c.pastCone s := by
  obtain ⟨_, _, _, _, rfl⟩ :=
    Compression.exists_of_compressReduced (compressReduced_of_compressCone h)
  rfl

theorem compressCone_reduced (h : c.compressCone s config = .ok r) :
    r.reduced.compressCone s config = .ok r := by
  have hloops : ∀ g ∈ (c.pastCone s).gates, ¬ g.IsLoop := fun g hg =>
    not_isLoop_of_compressCone h g ((sublist_gates_pastCone c s).subset hg)
  rw [reduced_of_compressCone h, compressCone_eq hloops, pastCone_pastCone c fun q hq => hq]
  exact compressReduced_of_compressCone h

theorem pastCone_restricts (c : Circuit) :
    (∀ s, (c.pastCone s).layers = c.layers.mapIdx fun i l =>
      (l.zipIdx.filter fun x => c.keeps s ⟨i, x.2⟩).map Prod.fst) ∧
    (∀ s t p, c.keeps (s ∪ t) p = (c.keeps s p || c.keeps t p)) ∧
    (∀ s t, s ⊆ t → List.Forall₂ List.Sublist (c.pastCone s).layers (c.pastCone t).layers ∧
      c.ancestorWidth s ≤ c.ancestorWidth t ∧ (c.pastCone t).pastCone s = c.pastCone s) ∧
    (∀ s, (c.pastCone s).pastCone s = c.pastCone s) ∧
    ∀ s config r, c.compressCone s config = .ok r → r.reduced.compressCone s config = .ok r := by
  refine ⟨layers_pastCone c, keeps_union c, fun s t h => ?_, fun s => ?_, fun s config r h => ?_⟩
  · exact ⟨forall₂_sublist_pastCone c h, ancestorWidth_mono c h, pastCone_pastCone c h⟩
  · exact pastCone_pastCone c fun q hq => hq
  · exact compressCone_reduced h

/-- The first pair of the layer is kept for the third qubit only. -/
theorem pastCone_restricts_shared :
    (pastCone ⟨[[.pair ⟨1⟩ ⟨2⟩, .pair ⟨0⟩ ⟨1⟩]]⟩ (.ofList [⟨0⟩, ⟨2⟩])).pastCone (.single ⟨0⟩) =
      ⟨[[.pair ⟨0⟩ ⟨1⟩]]⟩ ∧
    ∃ r, compressCone ⟨[[.pair ⟨1⟩ ⟨2⟩, .pair ⟨0⟩ ⟨1⟩]]⟩ (.single ⟨0⟩) = .ok r ∧
      r.reduced.compressCone (.single ⟨0⟩) = .ok r := by
  have hsub : QubitSet.single ⟨0⟩ ⊆ .ofList [⟨0⟩, ⟨2⟩] := by decide
  have hid : ∀ q ∈ (qubits ⟨[[.pair ⟨1⟩ ⟨2⟩, .pair ⟨0⟩ ⟨1⟩]]⟩).toList,
      q.index < UInt32.size - 1 := by
    decide
  obtain ⟨_, _, hsmaller, _, hagain⟩ :=
    pastCone_restricts ⟨[[.pair ⟨1⟩ ⟨2⟩, .pair ⟨0⟩ ⟨1⟩]]⟩
  obtain ⟨r, hr⟩ := exists_compressCone (by decide) hid (.single ⟨0⟩) {}
  exact ⟨(hsmaller _ _ hsub).2.2.trans (by decide), r, hr, hagain _ _ _ hr⟩

end QubitReuse.Circuit
