import QubitReuse.Proofs.Compression.Totality
import QubitReuse.Proofs.Cone.Padding
import QubitReuse.Proofs.Schedule.Lockstep

namespace QubitReuse

variable {c c' : Circuit}

namespace Circuit

theorem lockstep_active (t : TieBreak) : Lockstep id t t fun c c' => c'.active = c.active := by
  constructor
  case mem_qubits =>
    intro c c' h r
    rw [qubits_of_active h]
    simp
  case favors => exact fun _ _ _ _ _ _ _ => id
  case pastCone => exact fun c c' h q _ => pastCone_of_active h _
  case subtract => exact fun c c' h q _ rest rest' => rest_of_active h

theorem rearrange_of_active {frozen frozen' : QubitSet} (h : c'.active = c.active)
    (hfrozen : ∀ q ∈ c.qubits, q ∈ frozen' ↔ q ∈ frozen) (t : TieBreak) :
    c'.rearrange frozen' t = c.rearrange frozen t := by
  have hblocks : ∀ c c' : Circuit, c'.active = c.active →
      List.Forall₂ Eq ((c.layers.filter (!·.isEmpty)).map Step.block)
        ((c'.layers.filter (!·.isEmpty)).map Step.block) := by
    intro c c' h
    rw [List.forall₂_eq_eq_eq]
    exact congrArg (fun d => d.layers.map Step.block) h.symm
  obtain ⟨s, s', hs, hs', hsteps⟩ :=
    (lockstep_active t).rearrange h hblocks (fun _ => rfl) hfrozen
  rw [List.forall₂_eq_eq_eq] at hsteps
  rw [hs, hs']
  cases s
  cases s'
  cases hsteps
  rfl

end Circuit

namespace Compression

theorem Report.of_active (h : c'.active = c.active) (s : Schedule) (out : SlotCircuit) :
    Report.of c' s out = { Report.of c s out with reduced := c' } := by
  rw [of, Circuit.qubits_of_active h, Circuit.width_of_active h]
  rfl

theorem compressReduced_of_active {frozen frozen' : QubitSet} (h : c'.active = c.active)
    (hfrozen : ∀ q ∈ c.qubits, q ∈ frozen' ↔ q ∈ frozen) (config : Config) :
    compressReduced config c' frozen' =
      (compressReduced config c frozen).map ({ · with reduced := c' }) := by
  obtain ⟨rs, -, hex, hs⟩ := c.exists_rearrange frozen config.tieBreak
  obtain ⟨rs', -, hex', hs'⟩ := c'.exists_rearrange frozen' config.tieBreak
  have hsame : rs'.flatMap (·.steps frozen') = rs.flatMap (·.steps frozen) := by
    have heq := Circuit.rearrange_of_active h hfrozen config.tieBreak
    rw [hs, hs'] at heq
    exact congrArg Schedule.steps (Except.ok.inj heq)
  rw [compressReduced_eq hex hs, compressReduced_eq hex' hs', hsame]
  cases Schedule.assignSlots ⟨rs.flatMap (·.steps frozen)⟩ with
  | error e => rfl
  | ok out => exact congrArg Except.ok (Report.of_active h _ out)

end Compression

namespace Circuit

open Compression

variable {s s' : QubitSet}

theorem compressCone_of_active (h : c'.active = c.active) (hs : ∀ q ∈ c.qubits, q ∈ s' ↔ q ∈ s)
    (config : Config) :
    c'.compressCone s' config =
      (c.compressCone s config).map ({ · with reduced := c'.pastCone s' }) := by
  have hcone : (c'.pastCone s').active = (c.pastCone s).active := by
    rw [pastCone_of_active h, pastCone_congr hs]
  have hfrozen : ∀ q ∈ (c.pastCone s).qubits,
      q ∈ (if config.freezeSupport then s' else .empty) ↔
        q ∈ (if config.freezeSupport then s else .empty) := by
    intro q hq
    split
    · exact hs q (mem_qubits_of_pastCone hq)
    · exact Iff.rfl
  rw [compressCone, compressCone, validate_of_active h]
  cases c.validate with
  | error e => rfl
  | ok u => exact compressReduced_of_active hcone hfrozen config

theorem compress_ignores_padding (h : c'.active = c.active)
    (hs : ∀ q ∈ c.qubits, q ∈ s' ↔ q ∈ s) :
    (∀ config, ((∃ e, c'.compressCone s' config = .error e) ↔
        ∃ e, c.compressCone s config = .error e) ∧
      ∀ r, c.compressCone s config = .ok r → ∃ r', c'.compressCone s' config = .ok r' ∧
        r' = { r with reduced := r'.reduced } ∧ r'.reduced.active = r.reduced.active) ∧
    c.pastCone s' = c.pastCone s := by
  refine ⟨fun config => ?_, (pastCone_congr hs).symm⟩
  rw [compressCone_of_active h hs]
  constructor
  · cases c.compressCone s config with
    | error e => exact iff_of_true ⟨e, rfl⟩ ⟨e, rfl⟩
    | ok r => exact iff_of_false (fun ⟨e, he⟩ => nomatch he) fun ⟨e, he⟩ => nomatch he
  · intro r hr
    refine ⟨{ r with reduced := c'.pastCone s' }, by rw [hr]; rfl, rfl, ?_⟩
    obtain ⟨_, _, _, _, rfl⟩ := exists_of_compressReduced (compressReduced_of_compressCone hr)
    change (c'.pastCone s').active = (c.pastCone s).active
    rw [pastCone_of_active h, pastCone_congr hs]

theorem compress_ignores_padding_chain :
    pastCone ⟨[[.pair ⟨0⟩ ⟨1⟩], [.pair ⟨1⟩ ⟨2⟩]]⟩ (.ofList [⟨2⟩, ⟨9⟩]) =
      pastCone ⟨[[.pair ⟨0⟩ ⟨1⟩], [.pair ⟨1⟩ ⟨2⟩]]⟩ (.single ⟨2⟩) ∧
    ∃ r r', compressCone ⟨[[.pair ⟨0⟩ ⟨1⟩], [.pair ⟨1⟩ ⟨2⟩]]⟩ (.single ⟨2⟩) = .ok r ∧
      compressCone ⟨[[], [.pair ⟨0⟩ ⟨1⟩], [], [], [.pair ⟨1⟩ ⟨2⟩], []]⟩ (.ofList [⟨2⟩, ⟨9⟩]) =
        .ok r' ∧
      r'.schedule = r.schedule ∧ r'.compressed = r.compressed ∧ r'.volume = r.volume := by
  have hid : ∀ q ∈ (qubits ⟨[[.pair ⟨0⟩ ⟨1⟩], [.pair ⟨1⟩ ⟨2⟩]]⟩).toList,
      q.index < UInt32.size - 1 := by
    decide
  have hs : ∀ q ∈ (qubits ⟨[[.pair ⟨0⟩ ⟨1⟩], [.pair ⟨1⟩ ⟨2⟩]]⟩).toList,
      q ∈ QubitSet.ofList [⟨2⟩, ⟨9⟩] ↔ q ∈ QubitSet.single ⟨2⟩ := by
    decide
  have hc : active ⟨[[], [.pair ⟨0⟩ ⟨1⟩], [], [], [.pair ⟨1⟩ ⟨2⟩], []]⟩ =
      active ⟨[[.pair ⟨0⟩ ⟨1⟩], [.pair ⟨1⟩ ⟨2⟩]]⟩ := by
    rfl
  obtain ⟨hrun, hcone⟩ := compress_ignores_padding hc hs
  obtain ⟨r, hr⟩ := exists_compressCone (by decide) hid (.single ⟨2⟩) {}
  obtain ⟨r', hr', heq, -⟩ := (hrun {}).2 r hr
  exact ⟨hcone, r, r', hr, hr', heq ▸ rfl, heq ▸ rfl, heq ▸ rfl⟩

end Circuit

end QubitReuse
