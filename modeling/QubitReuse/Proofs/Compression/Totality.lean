import QubitReuse.Compression.Report
import QubitReuse.Proofs.Cone.Values
import QubitReuse.Proofs.Schedule.Rearrangement
import QubitReuse.Proofs.Slot.Placing
import QubitReuse.Proofs.Slot.Simulation

namespace QubitReuse

namespace Circuit.Exhausts

variable {c : Circuit} {rs : List Retirement} {frozen : QubitSet}

theorem releasesLive (h : c.Exhausts rs) :
    Schedule.ReleasesLive ⟨rs.flatMap (·.steps frozen)⟩ := by
  intro before q after hsteps
  have ⟨l, hl, g, hg, hgq⟩ := h.exists_block_of_release hsteps
  apply foldl_keepsLive (.inr ⟨l, hl, Layer.mem_ends.2 ⟨g, hg, hgq⟩⟩)
  exact (h.restsAfterRelease frozen).not_released_before hsteps

theorem isLive_of_not_released (h : c.Exhausts rs) {q : Qubit} (hq : q ∈ c.qubits)
    (hrel : .release q ∉ rs.flatMap (·.steps frozen)) :
    isLive (rs.flatMap (·.steps frozen)) q = true :=
  foldl_keepsLive (.inr (h.exists_block_of_mem_qubits frozen hq)) hrel

theorem bound_lt (h : c.Exhausts rs) (hid : ∀ q ∈ c.qubits, q.index < UInt32.size - 1)
    (frozen : QubitSet) :
    Schedule.bound ⟨rs.flatMap (·.steps frozen)⟩ < UInt32.size := by
  apply Schedule.bound_lt
  intro q hq
  have ⟨st, hst, hqst⟩ := Schedule.mem_qubits.1 hq
  exact hid q (h.mem_qubits_of_step hst hqst)

end Circuit.Exhausts

theorem CompressionError.message_loop (a : Qubit) :
    (circuit (.invalidGate (.pair a a) .loop)).message =
      s!"IR error: Invalid gate ({a.text}, {a.text}): both endpoints name the same qubit" := by
  have hstart : "IR error: " ++ "Invalid gate " ++ "(" = "IR error: Invalid gate (" := by decide
  have hend : ")" ++ ": " ++ "both endpoints name the same qubit" =
      "): both endpoints name the same qubit" := by decide
  change "IR error: " ++ ("Invalid gate " ++ ("(" ++ a.text ++ ", " ++ a.text ++ ")") ++ ": " ++
    "both endpoints name the same qubit") = _
  simp only [toString, ← hstart, ← hend, String.append_assoc]

namespace Compression

variable {c : Circuit} {frozen : QubitSet} {config : Config}

theorem compressReduced_eq {rs : List Retirement} (h : c.Exhausts rs)
    (hs : c.rearrange frozen config.tieBreak = .ok ⟨rs.flatMap (·.steps frozen)⟩) :
    compressReduced config c frozen =
      (Schedule.assignSlots ⟨rs.flatMap (·.steps frozen)⟩).map
        (.of c ⟨rs.flatMap (·.steps frozen)⟩) := by
  have hcheck := Schedule.checkOrder_eq_ok_iff.2
    ⟨h.linearises, h.restsAfterRelease frozen, rfl⟩
  rw [compressReduced, hs]
  cases hverify : config.verify with
  | true =>
    simp only [bind, Except.bind, pure, Except.pure, if_true, hcheck]
    rfl
  | false =>
    simp only [bind, Except.bind, pure, Except.pure]
    rfl

theorem compressReduced_eq_ok {rs : List Retirement} (h : c.Exhausts rs)
    (hs : c.rearrange frozen config.tieBreak = .ok ⟨rs.flatMap (·.steps frozen)⟩)
    {out : SlotCircuit} (hout : Schedule.assignSlots ⟨rs.flatMap (·.steps frozen)⟩ = .ok out) :
    compressReduced config c frozen = .ok (.of c ⟨rs.flatMap (·.steps frozen)⟩ out) := by
  rw [compressReduced_eq h hs, hout]
  rfl

theorem exists_of_compressReduced {r : Report} (h : compressReduced config c frozen = .ok r) :
    ∃ s out, c.rearrange frozen config.tieBreak = .ok s ∧ s.assignSlots = .ok out ∧
      r = .of c s out := by
  have ⟨rs, _, hex, hs⟩ := c.exists_rearrange frozen config.tieBreak
  rw [compressReduced_eq hex hs] at h
  cases hout : Schedule.assignSlots ⟨rs.flatMap (·.steps frozen)⟩ with
  | ok out =>
    rw [hout] at h
    exact ⟨_, out, hs, hout, (Except.ok.inj h).symm⟩
  | error e =>
    rw [hout] at h
    cases h

theorem exists_compressReduced (hid : ∀ q ∈ c.qubits, q.index < UInt32.size - 1)
    (frozen : QubitSet) (t : TieBreak) :
    ∃ r, ∀ config, config.tieBreak = t → compressReduced config c frozen = .ok r := by
  have ⟨rs, _, hex, hs⟩ := c.exists_rearrange frozen t
  have ⟨out, hout⟩ := Schedule.exists_assignSlots (hex.bound_lt hid frozen) hex.releasesLive
  refine ⟨.of c ⟨rs.flatMap (·.steps frozen)⟩ out, ?_⟩
  rintro config rfl
  exact compressReduced_eq_ok hex hs hout

end Compression

namespace Circuit

open Compression

variable {c : Circuit}

theorem validate_eq_error_iff {e : CircuitError} : c.validate = .error e ↔
    ∃ before a after, c.gates = before ++ .pair a a :: after ∧ (∀ g ∈ before, ¬ g.IsLoop) ∧
      e = .invalidGate (.pair a a) .loop := by
  constructor
  · intro h
    rw [validate] at h
    split at h
    · rename_i g hg
      cases h
      obtain ⟨hloop, before, after, hgates, hbefore⟩ := List.find?_eq_some_iff_append.1 hg
      cases g with
      | pair a b =>
        obtain rfl : a = b := of_decide_eq_true hloop
        exact ⟨before, a, after, hgates, by simpa using hbefore, rfl⟩
      | release q => exact absurd (of_decide_eq_true hloop) id
    · cases h
  · rintro ⟨before, a, after, hgates, hbefore, rfl⟩
    have hfind : c.gates.find? (fun g => decide g.IsLoop) = some (.pair a a) := by
      rw [List.find?_eq_some_iff_append]
      exact ⟨decide_eq_true rfl, before, after, hgates, by simpa using hbefore⟩
    rw [validate, hfind]

theorem compressCone_eq (h : ∀ g ∈ c.gates, ¬ g.IsLoop) (support : QubitSet) (config : Config) :
    c.compressCone support config = compressReduced config (c.pastCone support)
      (if config.freezeSupport then support else .empty) := by
  rw [compressCone, validate_eq_ok_iff.2 h]
  rfl

theorem compress_eq (h : ∀ g ∈ c.gates, ¬ g.IsLoop) (frozen : QubitSet) (config : Config) :
    c.compress frozen config = compressReduced config c frozen := by
  rw [compress, validate_eq_ok_iff.2 h]
  rfl

theorem exists_compressCone (h : ∀ g ∈ c.gates, ¬ g.IsLoop)
    (hid : ∀ q ∈ c.qubits, q.index < UInt32.size - 1) (support : QubitSet) (config : Config) :
    ∃ r, c.compressCone support config = .ok r := by
  have hcone : ∀ q ∈ (c.pastCone support).qubits, q.index < UInt32.size - 1 :=
    fun q hq => hid q (mem_qubits_of_pastCone hq)
  have ⟨r, hr⟩ := exists_compressReduced hcone
    (if config.freezeSupport then support else .empty) config.tieBreak
  exact ⟨r, (compressCone_eq h support config).trans (hr config rfl)⟩

theorem exists_compress (h : ∀ g ∈ c.gates, ¬ g.IsLoop)
    (hid : ∀ q ∈ c.qubits, q.index < UInt32.size - 1) (frozen : QubitSet) (config : Config) :
    ∃ r, c.compress frozen config = .ok r := by
  have ⟨r, hr⟩ := exists_compressReduced hid frozen config.tieBreak
  exact ⟨r, (compress_eq h frozen config).trans (hr config rfl)⟩

theorem compressReduced_of_compressCone {support : QubitSet} {config : Config} {r : Report}
    (h : c.compressCone support config = .ok r) :
    compressReduced config (c.pastCone support)
      (if config.freezeSupport then support else .empty) = .ok r := by
  have ⟨_, _, hr⟩ := bind_eq_ok_iff.1 h
  exact hr

theorem compressReduced_of_compress {frozen : QubitSet} {config : Config} {r : Report}
    (h : c.compress frozen config = .ok r) : compressReduced config c frozen = .ok r := by
  have ⟨_, _, hr⟩ := bind_eq_ok_iff.1 h
  exact hr

theorem not_isLoop_of_compressCone {support : QubitSet} {config : Config} {r : Report}
    (h : c.compressCone support config = .ok r) : ∀ g ∈ c.gates, ¬ g.IsLoop := by
  apply validate_eq_ok_iff.1
  obtain ⟨_, hvalid, _⟩ := bind_eq_ok_iff.1 h
  cases hv : c.validate with
  | ok u => rfl
  | error e =>
    rw [hv] at hvalid
    cases hvalid

/-- What a compression of `c` does for each setting: it refuses loops, and nothing else. -/
structure RefusesLoops (c : Circuit) (compress : Config → Except CompressionError Report) :
    Prop where
  fails_iff : ∀ config, (∃ e, compress config = .error e) ↔ ∃ a, .pair a a ∈ c.gates
  succeeds : ∀ config, (∀ a, .pair a a ∉ c.gates) → ∃ r, compress config = .ok r
  blames_first : ∀ config e, compress config = .error e →
    ∃ before a after, c.gates = before ++ .pair a a :: after ∧ (∀ g ∈ before, ¬ g.IsLoop) ∧
      e = .circuit (.invalidGate (.pair a a) .loop) ∧ e.isInternal = false ∧
      e.message =
        s!"IR error: Invalid gate ({a.text}, {a.text}): both endpoints name the same qubit"
  ignores_verify : ∀ config verify, compress { config with verify := verify } = compress config

namespace RefusesLoops

variable {compress : Config → Except CompressionError Report}

theorem of_error {a : Qubit} {before after : List Gate}
    (hgates : c.gates = before ++ .pair a a :: after) (hbefore : ∀ g ∈ before, ¬ g.IsLoop)
    (h : ∀ config, compress config = .error (.circuit (.invalidGate (.pair a a) .loop))) :
    c.RefusesLoops compress := by
  have hmem : .pair a a ∈ c.gates := by simp [hgates]
  constructor
  case fails_iff => exact fun config => iff_of_true ⟨_, h config⟩ ⟨a, hmem⟩
  case succeeds => exact fun config hnone => absurd hmem (hnone a)
  case blames_first =>
    intro config e he
    rw [h config] at he
    cases he
    exact ⟨before, a, after, hgates, hbefore, rfl, rfl, CompressionError.message_loop a⟩
  case ignores_verify => exact fun config verify => by rw [h, h]

theorem of_ok (hnone : ∀ g ∈ c.gates, ¬ g.IsLoop)
    (h : ∀ config : Config, ∃ r, ∀ verify, compress { config with verify := verify } = .ok r) :
    c.RefusesLoops compress := by
  have hok : ∀ config, ∃ r, compress config = .ok r :=
    fun config => (h config).imp fun _ hr => hr config.verify
  constructor
  case fails_iff =>
    intro config
    refine iff_of_false (fun ⟨e, he⟩ => ?_) fun ⟨a, ha⟩ => hnone _ ha rfl
    have ⟨r, hr⟩ := hok config
    cases he.symm.trans hr
  case succeeds => exact fun config _ => hok config
  case blames_first =>
    intro config e he
    have ⟨r, hr⟩ := hok config
    cases he.symm.trans hr
  case ignores_verify =>
    intro config verify
    have ⟨r, hr⟩ := h config
    exact (hr verify).trans (hr config.verify).symm

theorem of_validate {d : Circuit} (frozen : Bool → QubitSet)
    (hid : ∀ q ∈ d.qubits, q.index < UInt32.size - 1)
    (h : ∀ config, compress config = do
      c.validate.mapError .circuit
      compressReduced config d (frozen config.freezeSupport)) :
    c.RefusesLoops compress := by
  cases hvalid : c.validate with
  | error e =>
    obtain ⟨before, a, after, hgates, hbefore, rfl⟩ := validate_eq_error_iff.1 hvalid
    apply of_error hgates hbefore
    intro config
    rw [h, hvalid]
    rfl
  | ok u =>
    apply of_ok (validate_eq_ok_iff.1 hvalid)
    intro config
    have ⟨r, hr⟩ := exists_compressReduced hid (frozen config.freezeSupport) config.tieBreak
    refine ⟨r, fun verify => ?_⟩
    rw [h, hvalid]
    exact hr { config with verify := verify } rfl

end RefusesLoops

theorem compress_refuses_only_loops {c : Circuit}
    (hid : ∀ q ∈ c.qubits, q.index < UInt32.size - 1) :
    (∀ support, c.RefusesLoops fun config => c.compressCone support config) ∧
      ∀ frozen, c.RefusesLoops fun config => c.compress frozen config := by
  constructor
  · intro support
    exact RefusesLoops.of_validate (fun freeze => if freeze then support else .empty)
      (fun q hq => hid q (mem_qubits_of_pastCone hq)) fun _ => rfl
  · intro frozen
    exact RefusesLoops.of_validate (fun _ => frozen) hid fun _ => rfl

/-- The loop on the third qubit is refused although it is outside of the cone of the first one. -/
theorem compress_refuses_only_loops_outside :
    (∃ e, Circuit.compressCone ⟨[[.pair ⟨0⟩ ⟨1⟩], [.pair ⟨2⟩ ⟨2⟩]]⟩ (.single ⟨0⟩) = .error e ∧
      e.isInternal = false) ∧
    ∃ r, Circuit.compress ⟨[[.pair ⟨0⟩ ⟨1⟩, .pair ⟨1⟩ ⟨0⟩]]⟩ .empty = .ok r := by
  constructor
  · have h := (compress_refuses_only_loops (c := ⟨[[.pair ⟨0⟩ ⟨1⟩], [.pair ⟨2⟩ ⟨2⟩]]⟩)
      (by decide)).1 (.single ⟨0⟩)
    have ⟨e, he⟩ := (h.fails_iff {}).2 ⟨⟨2⟩, by decide⟩
    have ⟨_, _, _, _, _, _, hinternal, _⟩ := h.blames_first {} e he
    exact ⟨e, he, hinternal⟩
  · have h := (compress_refuses_only_loops (c := ⟨[[.pair ⟨0⟩ ⟨1⟩, .pair ⟨1⟩ ⟨0⟩]]⟩)
      (by decide)).2 .empty
    apply h.succeeds
    intro a ha
    rcases List.mem_cons.1 ha with ha | ha
    · cases ha
    · cases List.mem_singleton.1 ha

end Circuit

end QubitReuse
