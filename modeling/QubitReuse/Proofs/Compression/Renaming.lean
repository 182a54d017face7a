import QubitReuse.Proofs.Compression.Totality
import QubitReuse.Proofs.Schedule.Renaming
import QubitReuse.Proofs.Slot.Renaming

namespace QubitReuse

def TieBreak.opposite : TieBreak → TieBreak
  | lowestId => highestId
  | highestId => lowestId

def Circuit.qubitsWith (c : Circuit) (qs : QubitSet) : List Qubit := c.qubits.toList ++ qs.toList

def Compression.Report.map (f : Qubit → Qubit) (r : Report) : Report :=
  { r with reduced := r.reduced.map f, schedule := r.schedule.map f }

variable {f : Qubit → Qubit} {used : Qubit → Prop} {t t' : TieBreak}

/-- The names keep the order of these qubits for one tie break, or turn it around for the opposite
one. -/
def TieBreak.Carries (f : Qubit → Qubit) (qs : List Qubit) (t t' : TieBreak) : Prop :=
  (t' = t ∧ ∀ q ∈ qs, ∀ r ∈ qs, q < r → f q < f r) ∨
    (t' = t.opposite ∧ ∀ q ∈ qs, ∀ r ∈ qs, q < r → f r < f q)

namespace TieBreak.Carries

variable {qs : List Qubit} {q r : Qubit}

theorem favors (h : Carries f qs t t') (hq : q ∈ qs) (hr : r ∈ qs) (hqr : t.Favors q r) :
    t'.Favors (f q) (f r) := by
  rcases h with ⟨rfl, h⟩ | ⟨rfl, h⟩
  · cases t' with
    | lowestId => exact h q hq r hr hqr
    | highestId => exact h r hr q hq hqr
  · cases t with
    | lowestId => exact h q hq r hr hqr
    | highestId => exact h r hr q hq hqr

theorem injective (h : Carries f qs t t') (hq : q ∈ qs) (hr : r ∈ qs) (hqr : f q = f r) :
    q = r :=
  eq_of_favors (h.favors hq hr) (h.favors hr hq) hqr

end TieBreak.Carries

theorem Layer.width_map (f : Qubit → Qubit) (l : Layer) :
    Layer.width (l.map (Gate.map f)) = l.width := by
  rw [width, width, ends_map, List.length_map]

theorem Gate.isLoop_map_iff {g : Gate} (hinj : ∀ q r, used q → used r → f q = f r → q = r)
    (hg : ∀ q, g.Touches q → used q) : (g.map f).IsLoop ↔ g.IsLoop := by
  cases g with
  | pair a b =>
    have ha := hg a List.mem_cons_self
    have hb := hg b (List.mem_cons_of_mem a List.mem_cons_self)
    exact ⟨hinj a b ha hb, congrArg f⟩
  | release q => exact Iff.rfl

namespace Circuit

variable {c : Circuit} {qs : QubitSet}

theorem width_map (f : Qubit → Qubit) (c : Circuit) : (c.map f).width = c.width := by
  simp only [width, map, List.map_map, Function.comp_def, Layer.width_map]

theorem gates_map (f : Qubit → Qubit) (c : Circuit) :
    (c.map f).gates = c.gates.map (Gate.map f) :=
  List.map_flatten.symm

section

variable (hinj : ∀ q r, used q → used r → f q = f r → q = r) (hc : ∀ q ∈ c.qubits, used q)

include hinj hc

theorem not_isLoop_map_iff :
    (∀ g ∈ (c.map f).gates, ¬ g.IsLoop) ↔ ∀ g ∈ c.gates, ¬ g.IsLoop := by
  rw [gates_map, List.forall_mem_map]
  apply forall₂_congr
  intro g hg
  rw [Gate.isLoop_map_iff hinj fun q hq => hc q (mem_qubits.2 ⟨g, hg, hq⟩)]

theorem mem_qubits_map_iff {r : Qubit} : r ∈ (c.map f).qubits ↔ ∃ q ∈ c.qubits, f q = r :=
  (Gate.matching_renames hinj).mem_qubits (match_renames_iff.2 ⟨hc, rfl⟩)

theorem size_qubits_map : (c.map f).qubits.size = c.qubits.size :=
  QubitSet.size_eq_of_image (fun q hq r hr => hinj q r (hc q hq) (hc r hr))
    fun _ => mem_qubits_map_iff hinj hc

end

end Circuit

namespace Compression

variable {c : Circuit} {qs : QubitSet} {config config' : Config} {r r' : Report}

theorem map_of_compressReduced (hinj : ∀ q r, used q → used r → f q = f r → q = r)
    (hc : ∀ q ∈ c.qubits, used q) (hqs : ∀ q ∈ qs, used q)
    (hfavors : ∀ q r, used q → used r → config.tieBreak.Favors q r →
      config'.tieBreak.Favors (f q) (f r))
    (h : compressReduced config c qs = .ok r)
    (h' : compressReduced config' (c.map f) (qs.map f) = .ok r') : r' = r.map f := by
  obtain ⟨s, out, hs, hout, rfl⟩ := exists_of_compressReduced h
  obtain ⟨s', out', hs', hout', rfl⟩ := exists_of_compressReduced h'
  rw [Circuit.rearrange_map hinj hc hqs hfavors, hs] at hs'
  cases hs'
  have hused : ∀ q ∈ s.qubits, used q := by
    obtain ⟨rs, _, hex, hrs⟩ := c.exists_rearrange qs config.tieBreak
    cases hs.symm.trans hrs
    intro q hq
    obtain ⟨st, hst, hqst⟩ := Schedule.mem_qubits.1 hq
    exact hc q (hex.mem_qubits_of_step hst hqst)
  have hslots := Schedule.assignSlots_map
    (fun q r hq hr => hinj q r (hused q hq) (hused r hr)) hout hout'
  rw [hslots, Report.of, Circuit.size_qubits_map hinj hc, Circuit.width_map]
  rfl

end Compression

namespace Circuit

open Compression

variable {c : Circuit} {qs : QubitSet}

theorem exists_compressCone_map {config : Config} (hloop : ∀ g ∈ c.gates, ¬ g.IsLoop)
    (hf : TieBreak.Carries f (c.qubitsWith qs) config.tieBreak t')
    (hid : ∀ q ∈ c.qubits, q.index < UInt32.size - 1 ∧ (f q).index < UInt32.size - 1) :
    ∃ r, c.compressCone qs config = .ok r ∧
      (c.map f).compressCone (qs.map f) { config with tieBreak := t' } = .ok (r.map f) := by
  have hinj : ∀ q r, q ∈ c.qubitsWith qs → r ∈ c.qubitsWith qs → f q = f r → q = r :=
    fun q r => hf.injective
  have hc : ∀ q ∈ c.qubits, q ∈ c.qubitsWith qs := fun q => List.mem_append_left _
  have hqs : ∀ q ∈ qs, q ∈ c.qubitsWith qs := fun q => List.mem_append_right _
  have hcone : ∀ q ∈ (c.pastCone qs).qubits, q ∈ c.qubitsWith qs :=
    fun q hq => hc q (mem_qubits_of_pastCone hq)
  have hfrozen : ∀ q ∈ (if config.freezeSupport then qs else .empty), q ∈ c.qubitsWith qs := by
    split
    · exact hqs
    · exact nofun
  have hfrozen_map : (if config.freezeSupport then qs.map f else .empty) =
      (if config.freezeSupport then qs else .empty).map f := by
    split
    · rfl
    · rfl
  have hid_map : ∀ q ∈ (c.map f).qubits, q.index < UInt32.size - 1 := by
    intro q hq
    obtain ⟨p, hp, rfl⟩ := (mem_qubits_map_iff hinj hc).1 hq
    exact (hid p hp).2
  obtain ⟨r, hr⟩ := exists_compressCone hloop (fun q hq => (hid q hq).1) qs config
  obtain ⟨r', hr'⟩ := exists_compressCone ((not_isLoop_map_iff hinj hc).2 hloop) hid_map (qs.map f)
    { config with tieBreak := t' }
  have hreduced := compressReduced_of_compressCone hr'
  rw [pastCone_map hinj hc hqs, hfrozen_map] at hreduced
  have hmap := map_of_compressReduced hinj hcone hfrozen (fun q r => hf.favors)
    (compressReduced_of_compressCone hr) hreduced
  exact ⟨r, hr, hmap ▸ hr'⟩

theorem compress_renamed (hf : TieBreak.Carries f (c.qubitsWith qs) t t') :
    (c.map f).pastCone (qs.map f) = (c.pastCone qs).map f ∧
    (c.map f).rearrange (qs.map f) t' = (c.rearrange qs t).map (Schedule.map f) ∧
    ((∀ q ∈ c.qubits, q.index < UInt32.size - 1 ∧ (f q).index < UInt32.size - 1) →
      ∀ config, config.tieBreak = t →
        ((∃ r, (c.map f).compressCone (qs.map f) { config with tieBreak := t' } = .ok r) ↔
          ∃ r, c.compressCone qs config = .ok r) ∧
        ∀ r, c.compressCone qs config = .ok r →
          (c.map f).compressCone (qs.map f) { config with tieBreak := t' } = .ok (r.map f)) := by
  have hinj : ∀ q r, q ∈ c.qubitsWith qs → r ∈ c.qubitsWith qs → f q = f r → q = r :=
    fun q r => hf.injective
  have hc : ∀ q ∈ c.qubits, q ∈ c.qubitsWith qs := fun q => List.mem_append_left _
  have hqs : ∀ q ∈ qs, q ∈ c.qubitsWith qs := fun q => List.mem_append_right _
  refine ⟨pastCone_map hinj hc hqs, rearrange_map hinj hc hqs fun q r => hf.favors, ?_⟩
  rintro hid config rfl
  have hrun := fun hloop => exists_compressCone_map hloop hf hid
  refine ⟨⟨?_, ?_⟩, ?_⟩
  · rintro ⟨r, hr⟩
    obtain ⟨r', hr', _⟩ := hrun ((not_isLoop_map_iff hinj hc).1 (not_isLoop_of_compressCone hr))
    exact ⟨r', hr'⟩
  · rintro ⟨r, hr⟩
    obtain ⟨r', _, hr'⟩ := hrun (not_isLoop_of_compressCone hr)
    exact ⟨_, hr'⟩
  · intro r hr
    obtain ⟨r', hr', hmap⟩ := hrun (not_isLoop_of_compressCone hr)
    cases hr.symm.trans hr'
    exact hmap

theorem compress_renamed_chain :
    (∃ s, rearrange ⟨[[.pair ⟨0⟩ ⟨1⟩], [.pair ⟨1⟩ ⟨2⟩]]⟩ (.single ⟨2⟩) .lowestId = .ok s ∧
      rearrange ⟨[[.pair ⟨9⟩ ⟨8⟩], [.pair ⟨8⟩ ⟨7⟩]]⟩ (.single ⟨7⟩) .highestId =
        .ok (s.map fun q => ⟨9 - q.id⟩)) ∧
    ∃ r, compressCone ⟨[[.pair ⟨0⟩ ⟨1⟩], [.pair ⟨1⟩ ⟨2⟩]]⟩ (.single ⟨2⟩) = .ok r ∧
      compressCone ⟨[[.pair ⟨9⟩ ⟨8⟩], [.pair ⟨8⟩ ⟨7⟩]]⟩ (.single ⟨7⟩) { tieBreak := .highestId } =
        .ok (r.map fun q => ⟨9 - q.id⟩) := by
  have hf : TieBreak.Carries (fun q => ⟨9 - q.id⟩)
      (qubitsWith ⟨[[.pair ⟨0⟩ ⟨1⟩], [.pair ⟨1⟩ ⟨2⟩]]⟩ (.single ⟨2⟩)) .lowestId .highestId :=
    .inr ⟨rfl, by decide⟩
  have hid : ∀ q ∈ (qubits ⟨[[.pair ⟨0⟩ ⟨1⟩], [.pair ⟨1⟩ ⟨2⟩]]⟩).toList,
      q.index < UInt32.size - 1 ∧ (Qubit.mk (9 - q.id)).index < UInt32.size - 1 := by
    decide
  obtain ⟨_, hrearrange, hcompress⟩ := compress_renamed hf
  constructor
  · obtain ⟨rs, _, _, hs⟩ := exists_rearrange ⟨[[.pair ⟨0⟩ ⟨1⟩], [.pair ⟨1⟩ ⟨2⟩]]⟩
      (.single ⟨2⟩) .lowestId
    rw [hs] at hrearrange
    exact ⟨_, hs, hrearrange⟩
  · obtain ⟨r, hr⟩ := exists_compressCone (by decide) (fun q hq => (hid q hq).1) (.single ⟨2⟩) {}
    exact ⟨r, hr, (hcompress hid {} rfl).2 r hr⟩

end Circuit

end QubitReuse
