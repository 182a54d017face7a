import Mathlib.Data.List.Perm.Subperm
import QubitReuse.Json.Codec
import QubitReuse.Proofs.Compression.Figures
import QubitReuse.Proofs.Json.Record

namespace QubitReuse

open Json

theorem Qubit.ofJson?_toJson (q : Qubit) : ofJson? q.toJson = some q := by
  rw [ofJson?, toJson, nat?_ofNat q.index_lt]
  exact ofNat?_index q

namespace Gate

theorem plain_toJson (g : Gate) : g.toJson.Plain := by
  cases g with
  | pair a b =>
    have hends : (array ([a, b].map Qubit.toJson)).Plain := plain_array fun q _ => .number q.index
    exact plain_ofVariant (by decide) hends
  | release q => exact plain_ofVariant (by decide) (.number q.index)

theorem ofJson?_toJson (g : Gate) : ofJson? g.toJson = some g := by
  cases g with
  | pair a b =>
    rw [ofJson?, toJson, variant?_ofVariant (by decide)]
    simp [pair?, Qubit.ofJson?_toJson]
  | release q =>
    rw [ofJson?, toJson, variant?_ofVariant (by decide)]
    simp [Qubit.ofJson?_toJson]

end Gate

namespace Layer

theorem plain_toJson (l : Layer) : (toJson l).Plain := plain_array fun g _ => g.plain_toJson

theorem ofJson?_toJson (l : Layer) : ofJson? (toJson l) = some l :=
  list?_array fun g _ => g.ofJson?_toJson

end Layer

namespace Circuit

theorem isHeader : IsHeader ["layers"] := by decide

theorem plain_toJson (c : Circuit) : c.toJson.Plain :=
  plain_ofRecord isHeader
    (List.forall_mem_singleton.2 (plain_array fun l _ => Layer.plain_toJson l))

theorem ofJson?_toJson (c : Circuit) : ofJson? c.toJson = some c := by
  have hrecord : c.toJson.record? ["layers"] = some [.array (c.layers.map Layer.toJson)] :=
    record?_ofRecord isHeader
  have hlayers : (array (c.layers.map Layer.toJson)).list? Layer.ofJson? = some c.layers :=
    list?_array fun l _ => Layer.ofJson?_toJson l
  simp [ofJson?, hrecord, hlayers]

end Circuit

namespace QubitSet

theorem isHeader : IsHeader ["qubits"] := by decide

theorem ofList_toList (s : QubitSet) : ofList s.toList = s :=
  eq_of_mem_iff fun _ => mem_ofList

theorem plain_toJson (s : QubitSet) : s.toJson.Plain :=
  plain_ofRecord isHeader (List.forall_mem_singleton.2 (plain_array fun q _ => .number q.index))

theorem ofJson?_toJson (s : QubitSet) : ofJson? s.toJson = some s := by
  have hrecord : s.toJson.record? ["qubits"] = some [.array (s.toList.map Qubit.toJson)] :=
    record?_ofRecord isHeader
  have hqubits : (array (s.toList.map Qubit.toJson)).list? Qubit.ofJson? = some s.toList :=
    list?_array fun q _ => q.ofJson?_toJson
  simp [ofJson?, hrecord, hqubits, ofList_toList]

end QubitSet

namespace Step

theorem plain_toJson (st : Step) : st.toJson.Plain := by
  cases st with
  | block l => exact plain_ofVariant (by decide) (Layer.plain_toJson l)
  | release q => exact plain_ofVariant (by decide) (.number q.index)

theorem ofJson?_toJson (st : Step) : ofJson? st.toJson = some st := by
  cases st with
  | block l =>
    rw [ofJson?, toJson, variant?_ofVariant (by decide)]
    simp [Layer.ofJson?_toJson]
  | release q =>
    rw [ofJson?, toJson, variant?_ofVariant (by decide)]
    simp [Qubit.ofJson?_toJson]

end Step

namespace Schedule

theorem isHeader : IsHeader ["items"] := by decide

theorem plain_toJson (s : Schedule) : s.toJson.Plain :=
  plain_ofRecord isHeader (List.forall_mem_singleton.2 (plain_array fun st _ => st.plain_toJson))

theorem ofJson?_toJson (s : Schedule) : ofJson? s.toJson = some s := by
  have hrecord : s.toJson.record? ["items"] = some [.array (s.steps.map Step.toJson)] :=
    record?_ofRecord isHeader
  have hsteps : (array (s.steps.map Step.toJson)).list? Step.ofJson? = some s.steps :=
    list?_array fun st _ => st.ofJson?_toJson
  simp [ofJson?, hrecord, hsteps]

end Schedule

theorem count?_ofNat {n : Nat} (h : n < UInt64.size) : count? (.ofNat n) = some n := nat?_ofNat h

namespace SlotCircuit

structure Fits (c : SlotCircuit) : Prop where
  width : c.width < UInt64.size
  depth : c.depth < UInt64.size

theorem isHeader : IsHeader ["circuit", "width", "depth"] := by decide

theorem plain_toJson (c : SlotCircuit) : c.toJson.Plain := by
  refine plain_ofRecord isHeader ?_
  simp [Circuit.plain_toJson, plain_ofNat]

theorem ofJson?_toJson {c : SlotCircuit} (h : c.Fits) : ofJson? c.toJson = some c := by
  have hrecord : c.toJson.record? ["circuit", "width", "depth"] =
      some [c.circuit.toJson, .ofNat c.width, .ofNat c.depth] :=
    record?_ofRecord isHeader
  simp [ofJson?, hrecord, Circuit.ofJson?_toJson, count?_ofNat h.width, count?_ofNat h.depth]

end SlotCircuit

namespace TieBreak

theorem isPlain_name (t : TieBreak) : IsPlain t.name.toList := by
  cases t <;> decide

theorem plain_toJson (t : TieBreak) : t.toJson.Plain := plain_ofName t.isPlain_name

theorem ofJson?_toJson (t : TieBreak) : ofJson? t.toJson = some t := by
  rw [ofJson?, toJson, name?_ofName t.isPlain_name]
  cases t <;> rfl

end TieBreak

namespace Compression

namespace Config

def fields (c : Config) : List (String × Json) :=
  [("tie_break", c.tieBreak.toJson), ("freeze_support", .bool c.freezeSupport),
    ("verify", .bool c.verify)]

/-- All fields but the named ones are put to their defaults. -/
def keep (c : Config) (names : List String) : Config where
  tieBreak := if "tie_break" ∈ names then c.tieBreak else ({} : Config).tieBreak
  freezeSupport := if "freeze_support" ∈ names then c.freezeSupport else ({} : Config).freezeSupport
  verify := if "verify" ∈ names then c.verify else ({} : Config).verify

theorem isHeader : IsHeader ["tie_break", "freeze_support", "verify"] := by decide

theorem keep_fields (c : Config) : c.keep (c.fields.map Prod.fst) = c := by
  simp [keep, fields]

section Fields

variable {c : Config} {fields : List (String × Json)}

theorem isHeader_of_subperm (h : fields.Subperm c.fields) : IsHeader (fields.map Prod.fst) := by
  constructor
  · obtain ⟨kept, hperm, hkept⟩ := h
    exact (hperm.map Prod.fst).nodup_iff.1 ((hkept.map Prod.fst).nodup isHeader.1)
  · intro name hname
    exact isHeader.2 name (List.map_subset Prod.fst h.subset hname)

theorem plain_of_subperm (h : fields.Subperm c.fields) : (ofRecord fields).Plain := by
  refine plain_ofRecord (isHeader_of_subperm h) fun f hf => ?_
  have hall : ∀ f ∈ c.fields, f.2.Plain := by
    simp [Config.fields, TieBreak.plain_toJson, Plain.bool]
  exact hall f (h.subset hf)

theorem lookup_of_subperm (h : fields.Subperm c.fields) {name : String} {v : Json}
    (hv : (name, v) ∈ c.fields) :
    fields.lookup name = if name ∈ fields.map Prod.fst then some v else none := by
  have hnodup : (c.fields.map Prod.fst).Nodup := isHeader.1
  split
  case isTrue hname =>
    obtain ⟨f, hf, rfl⟩ := List.mem_map.1 hname
    have hlookup := (lookup_eq_some_iff hnodup).2 hv
    rw [(lookup_eq_some_iff hnodup).2 (h.subset hf)] at hlookup
    rw [(lookup_eq_some_iff (isHeader_of_subperm h).1).2 hf, hlookup]
  case isFalse hname =>
    refine List.lookup_eq_none_iff.2 fun f hf => bne_iff_ne.2 fun hne => hname ?_
    exact List.mem_map.2 ⟨f, hf, hne.symm⟩

theorem orElse_ite {α : Type} {value? : Json → Option α} {absent x : α} {v : Json}
    (hv : value? v = some x) (p : Prop) [Decidable p] :
    orElse value? absent (if p then some v else none) = some (if p then x else absent) := by
  split
  · exact hv
  · rfl

theorem ofJson?_of_subperm (h : fields.Subperm c.fields) :
    ofJson? (ofRecord fields) = some (c.keep (fields.map Prod.fst)) := by
  have htieBreak : fields.lookup "tie_break" = _ := lookup_of_subperm h (.head _)
  have hfreeze : fields.lookup "freeze_support" = _ := lookup_of_subperm h (.tail _ (.head _))
  have hverify : fields.lookup "verify" = _ := lookup_of_subperm h (.tail _ (.tail _ (.head _)))
  have hbool : ∀ b, bool? (.bool b) = some b := fun _ => rfl
  rw [ofJson?, fields?_ofRecord _ (isHeader_of_subperm h), Option.bind_eq_bind, Option.bind_some,
    List.map_cons, List.map_cons, List.map_cons, List.map_nil, htieBreak, hfreeze, hverify]
  simp only [orElse_ite c.tieBreak.ofJson?_toJson, orElse_ite (hbool _), Option.bind_eq_bind,
    Option.bind_some, Option.pure_def]
  rfl

end Fields

theorem plain_toJson (c : Config) : c.toJson.Plain := plain_of_subperm (.refl c.fields)

theorem ofJson?_toJson (c : Config) : ofJson? c.toJson = some c := by
  have h := ofJson?_of_subperm (.refl c.fields)
  rwa [keep_fields] at h

end Config

namespace Report

structure Fits (r : Report) : Prop where
  logicalQubits : r.logicalQubits < UInt64.size
  uncompressedWidth : r.uncompressedWidth < UInt64.size
  width : r.width < UInt64.size
  depth : r.depth < UInt64.size
  volume : r.volume < UInt64.size
  gates : r.gates < UInt64.size
  releases : r.releases < UInt64.size

theorem isHeader : IsHeader ["reduced", "schedule", "compressed", "logical_qubits",
    "uncompressed_width", "width", "depth", "volume", "gates", "releases"] := by
  decide

theorem plain_toJson (r : Report) : r.toJson.Plain := by
  refine plain_ofRecord isHeader ?_
  simp [Circuit.plain_toJson, Schedule.plain_toJson, plain_ofNat]

theorem ofJson?_toJson {r : Report} (h : r.Fits) : ofJson? r.toJson = some r := by
  have hrecord : r.toJson.record? ["reduced", "schedule", "compressed", "logical_qubits",
      "uncompressed_width", "width", "depth", "volume", "gates", "releases"] =
        some [r.reduced.toJson, r.schedule.toJson, r.compressed.toJson, .ofNat r.logicalQubits,
          .ofNat r.uncompressedWidth, .ofNat r.width, .ofNat r.depth, .ofNat r.volume,
          .ofNat r.gates, .ofNat r.releases] :=
    record?_ofRecord isHeader
  rw [ofJson?, hrecord]
  simp [Circuit.ofJson?_toJson, Schedule.ofJson?_toJson, count?_ofNat h.logicalQubits,
    count?_ofNat h.uncompressedWidth, count?_ofNat h.width, count?_ofNat h.depth,
    count?_ofNat h.volume, count?_ofNat h.gates, count?_ofNat h.releases]

/--
Of so many gates a run makes at most `2 ^ 31` slots and less than `2 ^ 32` layers, and the volume,
their product, has 64 bits.
-/
def gateLimit : Nat := 2 ^ 30

theorem fits_of_compressReduced {c : Circuit} {frozen : QubitSet} {config : Config} {r : Report}
    (h : compressReduced config c frozen = .ok r) (hc : c.numGates ≤ gateLimit) : r.Fits := by
  have hacc := accounts_of_compressReduced h
  have hlimit : gateLimit = 2 ^ 30 := rfl
  have hsize : UInt64.size = 2 ^ 64 := rfl
  have hlogical : r.logicalQubits ≤ 2 ^ 31 := by
    have := c.size_qubits_le
    have := hacc.logicalQubits
    omega
  have hslots : r.width ≤ 2 ^ 31 := Nat.le_trans hacc.width_le hlogical
  have hreleased : r.schedule.numReleases ≤ 2 ^ 31 := Nat.le_trans hacc.numReleases_le hlogical
  have hdepth : r.depth < 2 ^ 32 := by
    have := hacc.depth_eq
    have := hacc.numBlocks_le
    omega
  have hcount : ∀ p : Gate → Bool, c.gates.countP p ≤ gateLimit :=
    fun p => Nat.le_trans List.countP_le_length hc
  constructor
  case logicalQubits => omega
  case uncompressedWidth =>
    obtain ⟨s, out, _, _, rfl⟩ := exists_of_compressReduced h
    have : (of c s out).uncompressedWidth ≤ 2 * c.numGates := c.width_le_numGates
    omega
  case width => omega
  case depth => omega
  case volume =>
    calc
      r.volume = r.width * r.depth := hacc.volume
      _ ≤ 2 ^ 31 * 2 ^ 32 := Nat.mul_le_mul hslots (Nat.le_of_lt hdepth)
      _ < UInt64.size := by decide
  case gates =>
    have := hacc.gates
    have := hcount Gate.isPair
    omega
  case releases =>
    have := hacc.releases
    have := hcount Gate.isRelease
    omega

end Report

end Compression

namespace Json

open Compression

def ReadsBack {α : Type} (toJson : α → Json) (ofJson? : Json → Option α) (x : α) : Prop :=
  (parse? (toJson x).render).bind ofJson? = some x

theorem readsBack_of_plain {α : Type} {toJson : α → Json} {ofJson? : Json → Option α} {x : α}
    (hplain : (toJson x).Plain) (h : ofJson? (toJson x) = some x) : ReadsBack toJson ofJson? x := by
  rw [ReadsBack, hplain.parse?_render, Option.bind_some, h]

theorem fits_of_run {c : Circuit} {config : Config} {r : Report}
    (hc : c.numGates ≤ Report.gateLimit) (h : (∃ support, c.compressCone support config = .ok r) ∨
      ∃ frozen, c.compress frozen config = .ok r) : r.Fits := by
  rcases h with ⟨support, hr⟩ | ⟨frozen, hr⟩
  · have hle := (c.sublist_gates_pastCone support).length_le
    exact Report.fits_of_compressReduced (Circuit.compressReduced_of_compressCone hr)
      (Nat.le_trans hle hc)
  · exact Report.fits_of_compressReduced (Circuit.compressReduced_of_compress hr) hc

/--
A pair keeps the order of its ends, loops and empty layers are kept, and the qubits of a set are
written in ascending order. Fields that a config lacks take their defaults.
-/
theorem values_read_back :
    (∀ g, ReadsBack Gate.toJson Gate.ofJson? g) ∧
    (∀ c, ReadsBack Circuit.toJson Circuit.ofJson? c) ∧
    (∀ s, ReadsBack QubitSet.toJson QubitSet.ofJson? s) ∧
    (∀ s, ReadsBack Schedule.toJson Schedule.ofJson? s) ∧
    (∀ c : SlotCircuit, c.Fits → ReadsBack SlotCircuit.toJson SlotCircuit.ofJson? c) ∧
    (∀ c, ReadsBack Config.toJson Config.ofJson? c) ∧
    (∀ r : Report, r.Fits → ReadsBack Report.toJson Report.ofJson? r) ∧
    (∀ (c : Circuit) (config : Config) (r : Report), c.numGates ≤ Report.gateLimit →
      (∃ support, c.compressCone support config = .ok r) ∨
        (∃ frozen, c.compress frozen config = .ok r) →
      r.Fits ∧ ReadsBack Report.toJson Report.ofJson? r) ∧
    ∀ (c : Config) (fields : List (String × Json)), fields.Subperm c.fields →
      (parse? (ofRecord fields).render).bind Config.ofJson? =
        some (c.keep (fields.map Prod.fst)) := by
  have hreport : ∀ r : Report, r.Fits → ReadsBack Report.toJson Report.ofJson? r :=
    fun r h => readsBack_of_plain r.plain_toJson (Report.ofJson?_toJson h)
  refine ⟨?gate, ?circuit, ?support, ?schedule, ?slots, ?config, hreport, ?run, ?fields⟩
  case gate => exact fun g => readsBack_of_plain g.plain_toJson g.ofJson?_toJson
  case circuit => exact fun c => readsBack_of_plain c.plain_toJson c.ofJson?_toJson
  case support => exact fun s => readsBack_of_plain s.plain_toJson s.ofJson?_toJson
  case schedule => exact fun s => readsBack_of_plain s.plain_toJson s.ofJson?_toJson
  case slots =>
    exact fun c h => readsBack_of_plain c.plain_toJson (SlotCircuit.ofJson?_toJson h)
  case config => exact fun c => readsBack_of_plain c.plain_toJson c.ofJson?_toJson
  case run =>
    intro c config r hc h
    have hfits := fits_of_run hc h
    exact ⟨hfits, hreport r hfits⟩
  case fields =>
    intro c fields h
    rw [(Config.plain_of_subperm h).parse?_render, Option.bind_some, Config.ofJson?_of_subperm h]

theorem values_read_back_turned :
    ReadsBack SlotCircuit.toJson SlotCircuit.ofJson?
      ⟨⟨[[.pair ⟨7⟩ ⟨2⟩, .pair ⟨3⟩ ⟨3⟩], []]⟩, UInt64.size - 1, 2⟩ ∧
    ReadsBack Report.toJson Report.ofJson?
      ⟨⟨[]⟩, ⟨[.release ⟨4294967295⟩]⟩, ⟨[[]]⟩, 0, 0, 0, 1, 0, UInt64.size - 1, 0⟩ ∧
    (∃ r, Circuit.compress ⟨[[.pair ⟨1⟩ ⟨0⟩], [.pair ⟨1⟩ ⟨2⟩]]⟩ .empty = .ok r ∧
      ReadsBack Report.toJson Report.ofJson? r) ∧
    (parse? (ofRecord [("verify", .bool false), ("tie_break", .ofName "highest_id")]).render).bind
      Config.ofJson? = some ⟨.highestId, true, false⟩ := by
  obtain ⟨_, _, _, _, hslots, _, hreport, hrun, hfields⟩ := values_read_back
  refine ⟨hslots _ ⟨by decide, by decide⟩, ?_, ?_, ?_⟩
  · apply hreport
    constructor <;> decide
  · have hid : ∀ q ∈ (Circuit.qubits ⟨[[.pair ⟨1⟩ ⟨0⟩], [.pair ⟨1⟩ ⟨2⟩]]⟩).toList,
        q.index < UInt32.size - 1 := by
      decide
    obtain ⟨r, hr⟩ := Circuit.exists_compress (by decide) hid .empty {}
    exact ⟨r, hr, (hrun _ {} r (by decide) (.inr ⟨_, hr⟩)).2⟩
  · exact hfields ⟨.highestId, false, false⟩ _ ⟨_, .swap _ _ _, .cons_cons _ (.cons _ (.refl _))⟩

end Json

end QubitReuse
