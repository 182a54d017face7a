import QubitReuse.Proofs.Compression.Figures
import QubitReuse.Proofs.Schedule.Alike

namespace QubitReuse

namespace Schedule

variable {s s' : Schedule} (h : List.Forall₂ (Step.Match id Gate.Alike) s.steps s'.steps)

include h

theorem alike_of_match : s.Alike s' :=
  congrArg Schedule.mk (forall₂_map_eq_iff.1 (h.imp fun _ _ hst => hst.unoriented))

theorem layers_of_match : List.Forall₂ (List.Forall₂ Gate.Alike) s.layers s'.layers :=
  List.rel_flatMap h fun _ _ hst => hst.layers

end Schedule

theorem Layer.countP_of_alike {p : Gate → Bool} (hp : ∀ g, p g.unoriented = p g) {l l' : Layer}
    (h : List.Forall₂ Gate.Alike l l') : l'.countP p = l.countP p := by
  rw [← countP_unoriented hp, ← countP_unoriented hp l, forall₂_alike_iff.1 h]

namespace Compression

/-- Reports on alike circuits: alike where gates are shown, with equal figures and layers of equal
lengths. -/
structure Report.Alike (r r' : Report) : Prop where
  reduced : r.reduced.Alike r'.reduced
  schedule : r.schedule.Alike r'.schedule
  logicalQubits : r'.logicalQubits = r.logicalQubits
  uncompressedWidth : r'.uncompressedWidth = r.uncompressedWidth
  width : r'.width = r.width
  depth : r'.depth = r.depth
  volume : r'.volume = r.volume
  gates : r'.gates = r.gates
  releases : r'.releases = r.releases
  layers : r'.compressed.layers.map List.length = r.compressed.layers.map List.length

theorem alike_of_compressReduced {c c' : Circuit} {frozen : QubitSet} {config : Config}
    {r r' : Report} (h : c.Alike c') (hr : compressReduced config c frozen = .ok r)
    (hr' : compressReduced config c' frozen = .ok r') : r.Alike r' := by
  obtain ⟨s, out, hs, hout, rfl⟩ := exists_of_compressReduced hr
  obtain ⟨s', out', hs', hout', rfl⟩ := exists_of_compressReduced hr'
  have hsteps : List.Forall₂ (Step.Match id Gate.Alike) s.steps s'.steps := by
    obtain ⟨s₁, s₁', hs₁, hs₁', hsteps⟩ := Gate.matching_alike.rearrange (fun _ _ _ _ => id)
      (Circuit.match_alike_iff.2 h) fun _ _ => Iff.rfl
    cases hs.symm.trans hs₁
    cases hs'.symm.trans hs₁'
    exact hsteps
  have hlayers := Schedule.layers_of_match hsteps
  have hfigures := Report.sameFigures_of hout hout' h.size_qubits h.width
    (hsteps.imp fun _ _ hst => hst.sameLives) hlayers fun _ hp _ _ => Layer.countP_of_alike hp
  have hlength : Layer.IgnoresNames List.length := fun _ _ => List.length_map _
  refine { hfigures with reduced := h, schedule := Schedule.alike_of_match hsteps, layers := ?_ }
  simp only [Report.of]
  rw [Schedule.map_layers_of_assignSlots hout hlength,
    Schedule.map_layers_of_assignSlots hout' hlength]
  exact (forall₂_map_eq_iff.1 (hlayers.imp fun _ _ hl => hl.length_eq)).symm

end Compression

namespace Circuit

open Compression

theorem compress_alike {c c' : Circuit} (h : c.Alike c') :
    (∀ support, (c.pastCone support).Alike (c'.pastCone support) ∧
      c'.ancestorWidth support = c.ancestorWidth support) ∧
    (∀ d, (c'.subtract d).map unoriented = (c.subtract d).map unoriented) ∧
    ((∀ q ∈ c.qubits, q.index < UInt32.size - 1) → ∀ support config,
      (∃ e, c.compressCone support config = .error e ∧
        c'.compressCone support config = .error e) ∨
      ∃ r r', c.compressCone support config = .ok r ∧ c'.compressCone support config = .ok r' ∧
        r.Alike r') := by
  refine ⟨fun support => ⟨h.pastCone support, h.ancestorWidth support⟩, h.subtract, ?_⟩
  intro hid support config
  have hvalid := h.validate
  cases hc : c.validate with
  | error e =>
    left
    refine ⟨.circuit e, ?_, ?_⟩
    · rw [compressCone, hc]
      rfl
    · rw [compressCone, hvalid, hc]
      rfl
  | ok u =>
    right
    have hid' : ∀ q ∈ c'.qubits, q.index < UInt32.size - 1 :=
      fun q hq => hid q (h.mem_qubits_iff.1 hq)
    obtain ⟨r, hr⟩ := exists_compressCone (validate_eq_ok_iff.1 hc) hid support config
    obtain ⟨r', hr'⟩ := exists_compressCone (validate_eq_ok_iff.1 (hvalid.trans hc)) hid' support
      config
    exact ⟨r, r', hr, hr', alike_of_compressReduced (h.pastCone support)
      (compressReduced_of_compressCone hr) (compressReduced_of_compressCone hr')⟩

theorem compress_alike_turned :
    (∃ r r', compressCone ⟨[[.pair ⟨0⟩ ⟨1⟩], [.pair ⟨1⟩ ⟨2⟩]]⟩ (.single ⟨2⟩) = .ok r ∧
      compressCone ⟨[[.pair ⟨1⟩ ⟨0⟩], [.pair ⟨2⟩ ⟨1⟩]]⟩ (.single ⟨2⟩) = .ok r' ∧
      r'.width = r.width ∧ r.schedule.Alike r'.schedule) ∧
    ∃ e, compressCone ⟨[[.pair ⟨0⟩ ⟨1⟩, .pair ⟨3⟩ ⟨3⟩]]⟩ .empty = .error e ∧
      compressCone ⟨[[.pair ⟨1⟩ ⟨0⟩, .pair ⟨3⟩ ⟨3⟩]]⟩ .empty = .error e := by
  constructor
  · have h : Circuit.Alike ⟨[[.pair ⟨0⟩ ⟨1⟩], [.pair ⟨1⟩ ⟨2⟩]]⟩
        ⟨[[.pair ⟨1⟩ ⟨0⟩], [.pair ⟨2⟩ ⟨1⟩]]⟩ := by
      decide
    have hid : ∀ q ∈ (qubits ⟨[[.pair ⟨0⟩ ⟨1⟩], [.pair ⟨1⟩ ⟨2⟩]]⟩).toList,
        q.index < UInt32.size - 1 := by
      decide
    obtain ⟨_, hcone⟩ := exists_compressCone (by decide) hid (.single ⟨2⟩) {}
    rcases (compress_alike h).2.2 hid (.single ⟨2⟩) {} with ⟨e, he, _⟩ | ⟨r, r', hr, hr', halike⟩
    · cases he.symm.trans hcone
    · exact ⟨r, r', hr, hr', halike.width, halike.schedule⟩
  · have h : Circuit.Alike ⟨[[.pair ⟨0⟩ ⟨1⟩, .pair ⟨3⟩ ⟨3⟩]]⟩
        ⟨[[.pair ⟨1⟩ ⟨0⟩, .pair ⟨3⟩ ⟨3⟩]]⟩ := by
      decide
    have hid : ∀ q ∈ (qubits ⟨[[.pair ⟨0⟩ ⟨1⟩, .pair ⟨3⟩ ⟨3⟩]]⟩).toList,
        q.index < UInt32.size - 1 := by
      decide
    rcases (compress_alike h).2.2 hid .empty {} with herror | ⟨r, _, hr, _⟩
    · exact herror
    · exact absurd rfl (not_isLoop_of_compressCone hr (.pair ⟨3⟩ ⟨3⟩) (by decide))

end Circuit

end QubitReuse
