import QubitReuse.Proofs.Compression.Figures
import QubitReuse.Proofs.Compression.Meaning
import QubitReuse.Proofs.Schedule.Reordering

namespace QubitReuse

namespace Compression

theorem sameFigures_of_reorders {c c' : Circuit} {frozen : QubitSet} {config : Config}
    {r r' : Report} (hc : c.Disjoint) (h : c'.Reorders c)
    (hr : compressReduced config c frozen = .ok r)
    (hr' : compressReduced config c' frozen = .ok r') :
    r'.schedule.Reorders r.schedule ∧ r.SameFigures r' := by
  obtain ⟨s, out, hs, hout, rfl⟩ := exists_of_compressReduced hr
  obtain ⟨s', out', hs', hout', rfl⟩ := exists_of_compressReduced hr'
  have hsteps : s'.Reorders s := by
    obtain ⟨s₁, s₁', hs₁, hs₁', hsteps⟩ := h.rearrange hc frozen config.tieBreak
    cases hs.symm.trans hs₁
    cases hs'.symm.trans hs₁'
    exact hsteps
  have hlives : List.Forall₂ Step.SameLives s.steps s'.steps :=
    (hsteps.imp fun _ _ hst => hst.sameLives).flip
  have hlayers : List.Forall₂ (fun l l' => List.Perm l' l) s.layers s'.layers :=
    List.Forall₂.flip (List.rel_flatMap hsteps fun _ _ hst => hst.layers)
  exact ⟨hsteps, Report.sameFigures_of hout hout' h.size_qubits h.width hlives hlayers
    fun _ _ _ _ hl => hl.countP_eq _⟩

end Compression

namespace Circuit

open Compression

/-- In disjoint layers nothing but the slots hangs on the stored order of the gates. -/
theorem compress_reordered {c c' : Circuit} (hc : c.Disjoint) (h : c'.Reorders c) :
    (∀ support, (c'.pastCone support).Reorders (c.pastCone support) ∧
      c'.ancestorWidth support = c.ancestorWidth support) ∧
    (∀ frozen t, ∃ s s', c.rearrange frozen t = .ok s ∧ c'.rearrange frozen t = .ok s' ∧
      s'.Reorders s) ∧
    ((∀ q ∈ c.qubits, q.index < UInt32.size - 1) → ∀ support config, ∃ r r',
      c.compressCone support config = .ok r ∧ c'.compressCone support config = .ok r' ∧
        r'.schedule.Reorders r.schedule ∧ r.SameFigures r') := by
  refine ⟨fun support => ⟨h.pastCone hc support, h.ancestorWidth hc support⟩, h.rearrange hc, ?_⟩
  intro hid support config
  have hid' : ∀ q ∈ c'.qubits, q.index < UInt32.size - 1 :=
    fun q hq => hid q (h.mem_qubits_iff.1 hq)
  obtain ⟨r, hr⟩ := exists_compressCone (validate_eq_ok_iff.1 hc.validate_eq_ok) hid support config
  obtain ⟨r', hr'⟩ := exists_compressCone (validate_eq_ok_iff.1 (h.disjoint hc).validate_eq_ok) hid'
    support config
  exact ⟨r, r', hr, hr', sameFigures_of_reorders (hc.pastCone support) (h.pastCone hc support)
    (compressReduced_of_compressCone hr) (compressReduced_of_compressCone hr')⟩

theorem compress_reordered_joined :
    (pastCone ⟨[[.pair ⟨2⟩ ⟨3⟩, .pair ⟨0⟩ ⟨1⟩], [.pair ⟨1⟩ ⟨2⟩]]⟩ (.single ⟨2⟩)).Reorders
      (pastCone ⟨[[.pair ⟨0⟩ ⟨1⟩, .pair ⟨2⟩ ⟨3⟩], [.pair ⟨1⟩ ⟨2⟩]]⟩ (.single ⟨2⟩)) ∧
    ∃ r r', compressCone ⟨[[.pair ⟨0⟩ ⟨1⟩, .pair ⟨2⟩ ⟨3⟩], [.pair ⟨1⟩ ⟨2⟩]]⟩ (.single ⟨2⟩) = .ok r ∧
      compressCone ⟨[[.pair ⟨2⟩ ⟨3⟩, .pair ⟨0⟩ ⟨1⟩], [.pair ⟨1⟩ ⟨2⟩]]⟩ (.single ⟨2⟩) = .ok r' ∧
      r'.schedule.Reorders r.schedule ∧ r'.width = r.width ∧ r'.volume = r.volume := by
  have h : Circuit.Reorders ⟨[[.pair ⟨2⟩ ⟨3⟩, .pair ⟨0⟩ ⟨1⟩], [.pair ⟨1⟩ ⟨2⟩]]⟩
      ⟨[[.pair ⟨0⟩ ⟨1⟩, .pair ⟨2⟩ ⟨3⟩], [.pair ⟨1⟩ ⟨2⟩]]⟩ :=
    .cons (.swap _ _ _) (.cons (.refl _) .nil)
  have hid : ∀ q ∈ (qubits ⟨[[.pair ⟨0⟩ ⟨1⟩, .pair ⟨2⟩ ⟨3⟩], [.pair ⟨1⟩ ⟨2⟩]]⟩).toList,
      q.index < UInt32.size - 1 := by
    decide
  obtain ⟨hcone, _, hcompress⟩ := compress_reordered (by decide) h
  obtain ⟨r, r', hr, hr', hsteps, hfigures⟩ := hcompress hid (.single ⟨2⟩) {}
  exact ⟨(hcone _).1, r, r', hr, hr', hsteps, hfigures.width, hfigures.volume⟩

end Circuit

end QubitReuse
