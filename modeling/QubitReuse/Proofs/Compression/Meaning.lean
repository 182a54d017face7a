import QubitReuse.Proofs.Compression.Totality
import QubitReuse.Proofs.Schedule.Values
import QubitReuse.Proofs.Slot.Room

namespace QubitReuse

universe u

namespace Compression

/-- In a fresh pool with slots enough, each of these qubits holds a slot when the schedule has run,
and in this slot the compressed circuit leaves what the given one leaves in the qubit. -/
def Report.Computes (r : Report) (c : Circuit) (kept : Qubit → Prop) : Prop :=
  ∀ bound, r.schedule.bound ≤ bound → bound < UInt32.size →
    ∃ pool, r.schedule.replay (.ofBound bound) = .ok () pool ∧
      ∀ q, kept q → ∃ slot, pool.slotOf? q = some slot ∧
        ∀ {V : Type u} (m : Device V), r.compressed.exec m m.initial slot = c.exec m m.initial q

theorem compressReduced_computes {c : Circuit} (hc : c.Disjoint)
    (hid : ∀ q ∈ c.qubits, q.index < UInt32.size - 1) (config : Config) (frozen : QubitSet) :
    ∃ r, compressReduced config c frozen = .ok r ∧ r.schedule.bound < UInt32.size ∧
      Report.Computes.{u} r c (fun q => q ∈ c.qubits ∧ .release q ∉ r.schedule.steps) ∧
      ∀ q ∈ frozen, .release q ∉ r.schedule.steps := by
  have ⟨rs, _, hex, hs⟩ := c.exists_rearrange frozen config.tieBreak
  have hbound := hex.bound_lt hid frozen
  have ⟨p, hreplay⟩ := Schedule.exists_replay hbound hex.releasesLive
  have ⟨layers, hplace⟩ := Schedule.replay_iff.1 hreplay
  refine ⟨_, compressReduced_eq_ok hex hs (Schedule.assignSlots_of_place hplace), hbound, ?_, ?_⟩
  · intro bound hle hlt
    have ⟨pool, hplace'⟩ := Schedule.place_ofBound hplace hle hlt
    have hreplay' := Schedule.replay_iff.2 ⟨layers, hplace'⟩
    refine ⟨pool, hreplay', ?_⟩
    intro q ⟨hq, hrel⟩
    have hsome : (pool.slotOf? q).isSome = true := by
      rw [Schedule.isSome_slotOf?_replay hreplay']
      exact hex.isLive_of_not_released hq hrel
    have ⟨slot, hslot⟩ := Option.isSome_iff_exists.1 hsome
    refine ⟨slot, hslot, fun m => ?_⟩
    have hmirrors := (Mirrors.ofBound m bound).run (Pool.sound_ofBound bound) hplace'
    exact (hmirrors.held q slot hslot).trans (hex.exec_schedule hc hrel)
  · intro q hq hrel
    exact Retirement.not_mem_frozen_of_release hrel hq

end Compression

namespace Circuit

open Compression

theorem compress_preserves_meaning {c : Circuit} (hc : c.Disjoint)
    (hid : ∀ q ∈ c.qubits, q.index < UInt32.size - 1) (config : Config) :
    (∀ support, ∃ r, c.compressCone support config = .ok r ∧ r.schedule.bound < UInt32.size ∧
      Report.Computes.{u} r c
        (fun q => q ∈ support ∧ q ∈ c.qubits ∧ .release q ∉ r.schedule.steps) ∧
      (config.freezeSupport = true → ∀ q ∈ support, .release q ∉ r.schedule.steps)) ∧
    ∀ frozen, ∃ r, c.compress frozen config = .ok r ∧ r.schedule.bound < UInt32.size ∧
      Report.Computes.{u} r c (fun q => q ∈ c.qubits ∧ .release q ∉ r.schedule.steps) ∧
      ∀ q ∈ frozen, .release q ∉ r.schedule.steps := by
  constructor
  · intro support
    have hid' : ∀ q ∈ (c.pastCone support).qubits, q.index < UInt32.size - 1 :=
      fun q hq => hid q (mem_qubits_of_pastCone hq)
    obtain ⟨r, hr, hbound, hcomputes, hfrozen⟩ := compressReduced_computes (hc.pastCone support) hid'
      config (if config.freezeSupport then support else .empty)
    refine ⟨r, ?_, hbound, ?_, ?_⟩
    · rw [compressCone, hc.validate_eq_ok]
      exact hr
    · intro bound hle hlt
      obtain ⟨pool, hreplay, hpool⟩ := hcomputes bound hle hlt
      refine ⟨pool, hreplay, ?_⟩
      rintro q ⟨hq, hqc, hrel⟩
      obtain ⟨g, hg, hgq⟩ := mem_qubits.1 hqc
      have hcone := mem_qubits.2 (exists_touches_pastCone hg hgq hq)
      obtain ⟨slot, hslot, hvalue⟩ := hpool q ⟨hcone, hrel⟩
      exact ⟨slot, hslot, fun m => (hvalue m).trans (exec_pastCone hc hq)⟩
    · intro hfreeze q hq
      apply hfrozen
      rw [if_pos hfreeze]
      exact hq
  · intro frozen
    obtain ⟨r, hr, hrest⟩ := compressReduced_computes hc hid config frozen
    refine ⟨r, ?_, hrest⟩
    rw [compress, hc.validate_eq_ok]
    exact hr

/-- A pair adds its first value to its second one, so 1, 1 and 1 become 1, 2 and 3. -/
theorem compress_preserves_meaning_chain :
    ∃ r pool slot, Circuit.compress ⟨[[.pair ⟨0⟩ ⟨1⟩], [.pair ⟨1⟩ ⟨2⟩]]⟩ (.single ⟨2⟩) = .ok r ∧
      r.schedule.replay (.ofBound r.schedule.bound) = .ok () pool ∧
      pool.slotOf? ⟨2⟩ = some slot ∧
      r.compressed.exec ⟨1, fun x => (x.1, x.1 + x.2)⟩ (fun _ => 1) slot = 3 := by
  have hid : ∀ q ∈ (Circuit.qubits ⟨[[.pair ⟨0⟩ ⟨1⟩], [.pair ⟨1⟩ ⟨2⟩]]⟩).toList,
      q.index < UInt32.size - 1 := by
    decide
  have ⟨_, hall⟩ := compress_preserves_meaning (c := ⟨[[.pair ⟨0⟩ ⟨1⟩], [.pair ⟨1⟩ ⟨2⟩]]⟩)
    (by decide) hid {}
  have ⟨r, hr, hbound, hcomputes, hfrozen⟩ := hall (.single ⟨2⟩)
  have ⟨pool, hreplay, hpool⟩ := hcomputes r.schedule.bound (Nat.le_refl _) hbound
  have ⟨slot, hslot, hvalue⟩ := hpool ⟨2⟩ ⟨by decide, hfrozen _ (by decide)⟩
  exact ⟨r, pool, slot, hr, hreplay, hslot, hvalue ⟨1, fun x => (x.1, x.1 + x.2)⟩⟩

end Circuit

end QubitReuse
