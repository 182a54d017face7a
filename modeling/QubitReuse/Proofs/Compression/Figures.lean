import QubitReuse.Proofs.Cone.Matching
import QubitReuse.Proofs.Compression.Freezing
import QubitReuse.Proofs.Schedule.Counts

namespace QubitReuse

namespace Compression

/-- The figures of a report on the circuit `c`, of which the frozen qubits are not released. -/
structure Report.Accounts (r : Report) (c : Circuit) (frozen : QubitSet) : Prop where
  reduced : r.reduced = c
  logicalQubits : r.logicalQubits = c.qubits.size
  gates : r.gates = c.gates.countP Gate.isPair
  releases : r.releases = r.schedule.numReleases + c.gates.countP Gate.isRelease
  depth : r.depth = r.compressed.depth
  depth_eq : r.depth = r.schedule.numBlocks + r.schedule.numReleases
  activeDepth_le : c.activeDepth ≤ r.schedule.numBlocks
  numBlocks_le : r.schedule.numBlocks ≤ c.numGates
  numReleases_le : r.schedule.numReleases ≤ r.logicalQubits
  width_le : r.width ≤ r.logicalQubits
  logicalQubits_le : r.logicalQubits ≤ r.width + r.schedule.numReleases
  frozen_le : (c.qubits.toList.filter fun q => decide (q ∈ frozen)).length ≤ r.width
  volume : r.volume = r.width * r.depth

structure Report.SameFigures (r r' : Report) : Prop where
  logicalQubits : r'.logicalQubits = r.logicalQubits
  uncompressedWidth : r'.uncompressedWidth = r.uncompressedWidth
  width : r'.width = r.width
  depth : r'.depth = r.depth
  volume : r'.volume = r.volume
  gates : r'.gates = r.gates
  releases : r'.releases = r.releases

theorem Report.sameFigures_of {c c' : Circuit} {s s' : Schedule} {out out' : SlotCircuit}
    (hout : s.assignSlots = .ok out) (hout' : s'.assignSlots = .ok out')
    (hqubits : c'.qubits.size = c.qubits.size) (hwidth : c'.width = c.width)
    (hlives : List.Forall₂ Step.SameLives s.steps s'.steps) {L : Layer → Layer → Prop}
    (hlayers : List.Forall₂ L s.layers s'.layers)
    (hcount : ∀ p : Gate → Bool, (∀ g, p g.unoriented = p g) → ∀ l l', L l l' →
      l'.countP p = l.countP p) :
    (Report.of c s out).SameFigures (.of c' s' out') := by
  have htotal : ∀ w : Layer → Nat, (∀ l l', L l l' → w l' = w l) → s'.total w = s.total w :=
    fun w hw =>
      congrArg List.sum (forall₂_map_eq_iff.1 (hlayers.imp fun l l' hl => (hw l l' hl).symm)).symm
  have hslots : out'.width = out.width := by
    rw [Schedule.width_of_assignSlots hout, Schedule.width_of_assignSlots hout',
      Schedule.peakLive_of_sameLives hlives]
  have hdepth : out'.depth = out.depth := by
    rw [Schedule.depth_of_assignSlots hout, Schedule.depth_of_assignSlots hout',
      htotal _ fun _ _ _ => rfl]
  have hgates : ∀ p : Gate → Bool, (∀ f g, p (g.map f) = p g) → (∀ g, p g.unoriented = p g) →
      out'.circuit.gates.countP p = out.circuit.gates.countP p := by
    intro p hmap hp
    rw [Schedule.countP_gates_of_assignSlots hout hmap,
      Schedule.countP_gates_of_assignSlots hout' hmap, htotal _ (hcount p hp)]
  constructor
  case logicalQubits => exact hqubits
  case uncompressedWidth => exact hwidth
  case width => exact hslots
  case depth => exact hdepth
  case volume => simp only [Report.of, SlotCircuit.volume, hslots, hdepth]
  case gates => exact hgates _ Gate.isPair_map Gate.isPair_unoriented
  case releases => exact hgates _ Gate.isRelease_map Gate.isRelease_unoriented

end Compression

namespace Circuit.Exhausts

variable {c : Circuit} {rs : List Retirement} {frozen : QubitSet}

theorem peakLive_le (h : c.Exhausts rs) :
    Schedule.peakLive ⟨rs.flatMap (·.steps frozen)⟩ ≤ c.qubits.size := by
  refine Nat.le_trans (Schedule.peakLive_le_size _) (QubitSet.size_le_size ?_)
  intro q hq
  have ⟨st, hst, hqst⟩ := Schedule.mem_qubits.1 hq
  exact h.mem_qubits_of_step hst hqst

theorem size_qubits_le (h : c.Exhausts rs) :
    c.qubits.size ≤ Schedule.peakLive ⟨rs.flatMap (·.steps frozen)⟩ +
      Schedule.numReleases ⟨rs.flatMap (·.steps frozen)⟩ := by
  have hlive : ∀ q ∈ c.qubits.toList,
      isLive (Schedule.freeze ⟨rs.flatMap (·.steps frozen)⟩ c.qubits).steps q = true := by
    intro q hq
    have ⟨l, hl, hql⟩ := h.exists_block_of_mem_qubits frozen hq
    refine foldl_keepsLive (.inr ⟨l, List.mem_filter.2 ⟨hl, rfl⟩, hql⟩) fun hrel => ?_
    have hnot := (List.mem_filter.1 hrel).2
    rw [Step.releasesIn, decide_eq_true (QubitSet.mem_def.2 hq)] at hnot
    cases hnot
  calc
    c.qubits.size ≤ (Schedule.freeze ⟨rs.flatMap (·.steps frozen)⟩ c.qubits).peakLive :=
      Schedule.length_le_peakLive c.qubits.nodup hlive
    _ ≤ _ := Schedule.peakLive_freeze_le _ _
    _ ≤ _ := Nat.add_le_add_left (Schedule.numReleasesIn_le _ _) _

theorem length_frozen_le (h : c.Exhausts rs) :
    (c.qubits.toList.filter fun q => decide (q ∈ frozen)).length ≤
      Schedule.peakLive ⟨rs.flatMap (·.steps frozen)⟩ := by
  apply Schedule.length_le_peakLive (c.qubits.nodup.filter _)
  intro q hq
  have ⟨hq, hfrozen⟩ := List.mem_filter.1 hq
  refine h.isLive_of_not_released hq fun hrel => ?_
  exact Retirement.not_mem_frozen_of_release hrel (of_decide_eq_true hfrozen)

end Circuit.Exhausts

namespace Compression

variable {c : Circuit} {frozen : QubitSet} {config : Config} {r : Report}

theorem accounts_of_compressReduced (h : compressReduced config c frozen = .ok r) :
    r.Accounts c frozen := by
  obtain ⟨s, out, hs, hout, rfl⟩ := exists_of_compressReduced h
  obtain ⟨rs, _, hex, hs'⟩ := c.exists_rearrange frozen config.tieBreak
  cases hs.symm.trans hs'
  have hlin : Schedule.Linearises ⟨rs.flatMap (·.steps frozen)⟩ c := hex.linearises
  have hblocks : ∀ l, .block l ∈ rs.flatMap (·.steps frozen) → l ≠ [] :=
    fun l => Retirement.ne_nil_of_block
  have hwidth : (Report.of c ⟨rs.flatMap (·.steps frozen)⟩ out).width = _ :=
    Schedule.width_of_assignSlots hout
  constructor
  case reduced => rfl
  case logicalQubits => rfl
  case gates =>
    rw [Report.of, Schedule.countP_gates_of_assignSlots hout Gate.isPair_map,
      Schedule.total_countP (n := 0) fun _ => rfl, Nat.zero_mul, Nat.add_zero]
    exact hlin.countP_gates Gate.isPair_unoriented
  case releases =>
    rw [Report.of, Schedule.countP_gates_of_assignSlots hout Gate.isRelease_map,
      Schedule.total_countP (n := 1) fun _ => rfl, Nat.one_mul, Nat.add_comm,
      hlin.countP_gates Gate.isRelease_unoriented]
  case depth =>
    obtain ⟨layers, p, -, rfl⟩ := Schedule.exists_place_of_assignSlots hout
    rfl
  case depth_eq => exact (Schedule.depth_of_assignSlots hout).trans (Schedule.total_one hblocks)
  case activeDepth_le => exact hex.activeDepth_le_numBlocks frozen
  case numBlocks_le => exact hlin.length_gates ▸ Schedule.numBlocks_le_length_gates hblocks
  case numReleases_le => exact hex.numReleases_le frozen
  case width_le =>
    rw [hwidth]
    exact hex.peakLive_le
  case logicalQubits_le =>
    rw [hwidth]
    exact hex.size_qubits_le
  case frozen_le =>
    rw [hwidth]
    exact hex.length_frozen_le
  case volume => rfl

end Compression

namespace Circuit

open Compression

theorem compress_accounts (c : Circuit) (config : Config) :
    (∀ support r, c.compressCone support config = .ok r →
      r.Accounts (c.pastCone support) (if config.freezeSupport then support else .empty)) ∧
    ∀ frozen r, c.compress frozen config = .ok r → r.Accounts c frozen := by
  constructor
  · intro support r h
    exact accounts_of_compressReduced (compressReduced_of_compressCone h)
  · intro frozen r h
    exact accounts_of_compressReduced (compressReduced_of_compress h)

theorem compress_accounts_chain :
    (∃ r, compressCone ⟨[[.pair ⟨0⟩ ⟨1⟩], [.pair ⟨1⟩ ⟨2⟩]]⟩ (.single ⟨2⟩) = .ok r ∧
      r.gates = 2 ∧ r.width ≤ 3 ∧ 3 ≤ r.width + r.schedule.numReleases) ∧
    ∃ r, compress ⟨[[.pair ⟨0⟩ ⟨1⟩], [.release ⟨1⟩]]⟩ .empty = .ok r ∧
      r.gates = 1 ∧ r.releases = r.schedule.numReleases + 1 := by
  constructor
  · have hcone : pastCone ⟨[[.pair ⟨0⟩ ⟨1⟩], [.pair ⟨1⟩ ⟨2⟩]]⟩ (.single ⟨2⟩) =
        ⟨[[.pair ⟨0⟩ ⟨1⟩], [.pair ⟨1⟩ ⟨2⟩]]⟩ := by
      rfl
    have hid : ∀ q ∈ (qubits ⟨[[.pair ⟨0⟩ ⟨1⟩], [.pair ⟨1⟩ ⟨2⟩]]⟩).toList,
        q.index < UInt32.size - 1 := by
      decide
    have ⟨r, hr⟩ := exists_compressCone (by decide) hid (.single ⟨2⟩) {}
    have h := (compress_accounts _ {}).1 _ r hr
    rw [hcone] at h
    have hsize : r.logicalQubits = 3 := h.logicalQubits
    exact ⟨r, hr, h.gates, hsize ▸ h.width_le, hsize ▸ h.logicalQubits_le⟩
  · have hid : ∀ q ∈ (qubits ⟨[[.pair ⟨0⟩ ⟨1⟩], [.release ⟨1⟩]]⟩).toList,
        q.index < UInt32.size - 1 := by
      decide
    have ⟨r, hr⟩ := exists_compress (by decide) hid .empty {}
    have h := (compress_accounts _ {}).2 _ r hr
    exact ⟨r, hr, h.gates, h.releases⟩

end Circuit

end QubitReuse
