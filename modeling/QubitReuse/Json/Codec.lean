import QubitReuse.Compression.Report
import QubitReuse.Json.Record
import QubitReuse.Lattice.Torus

namespace QubitReuse

open Json

def Qubit.toJson (q : Qubit) : Json := .ofNat q.index

def Qubit.ofJson? (v : Json) : Option Qubit := do Qubit.ofNat? (← v.nat? (UInt32.size))

namespace Gate

def toJson : Gate → Json
  | pair a b => .ofVariant "Pair" (.array [a.toJson, b.toJson])
  | release q => .ofVariant "Release" q.toJson

def ofJson? (v : Json) : Option Gate := do
  match ← v.variant? with
  | ("Pair", ends) => (ends.pair? Qubit.ofJson?).map fun (a, b) => pair a b
  | ("Release", q) => (Qubit.ofJson? q).map release
  | _ => none

end Gate

namespace Layer

def toJson (l : Layer) : Json := .array (l.map Gate.toJson)

def ofJson? (v : Json) : Option Layer := v.list? Gate.ofJson?

end Layer

namespace Circuit

def toJson (c : Circuit) : Json := .ofRecord [("layers", .array (c.layers.map Layer.toJson))]

def ofJson? (v : Json) : Option Circuit := do
  let [layers] ← v.record? ["layers"] | none
  return ⟨← layers.list? Layer.ofJson?⟩

end Circuit

namespace QubitSet

def toJson (s : QubitSet) : Json := .ofRecord [("qubits", .array (s.toList.map Qubit.toJson))]

def ofJson? (v : Json) : Option QubitSet := do
  let [qubits] ← v.record? ["qubits"] | none
  return .ofList (← qubits.list? Qubit.ofJson?)

end QubitSet

namespace Step

def toJson : Step → Json
  | block l => .ofVariant "Block" (Layer.toJson l)
  | release q => .ofVariant "Release" q.toJson

def ofJson? (v : Json) : Option Step := do
  match ← v.variant? with
  | ("Block", l) => (Layer.ofJson? l).map block
  | ("Release", q) => (Qubit.ofJson? q).map release
  | _ => none

end Step

namespace Schedule

def toJson (s : Schedule) : Json := .ofRecord [("items", .array (s.steps.map Step.toJson))]

def ofJson? (v : Json) : Option Schedule := do
  let [steps] ← v.record? ["items"] | none
  return ⟨← steps.list? Step.ofJson?⟩

end Schedule

/-- A count has at most 64 bits. -/
def count? (v : Json) : Option Nat := v.nat? (UInt64.size)

namespace SlotCircuit

def toJson (c : SlotCircuit) : Json := .ofRecord
  [("circuit", c.circuit.toJson), ("width", .ofNat c.width), ("depth", .ofNat c.depth)]

def ofJson? (v : Json) : Option SlotCircuit := do
  let [circuit, width, depth] ← v.record? ["circuit", "width", "depth"] | none
  return ⟨← Circuit.ofJson? circuit, ← count? width, ← count? depth⟩

end SlotCircuit

namespace TieBreak

def name : TieBreak → String
  | lowestId => "lowest_id"
  | highestId => "highest_id"

def ofName? : String → Option TieBreak
  | "lowest_id" => some lowestId
  | "highest_id" => some highestId
  | _ => none

def toJson (t : TieBreak) : Json := .ofName t.name

def ofJson? (v : Json) : Option TieBreak := do ofName? (← v.name?)

end TieBreak

namespace Compression

namespace Config

def toJson (c : Config) : Json := .ofRecord
  [("tie_break", c.tieBreak.toJson), ("freeze_support", .bool c.freezeSupport),
    ("verify", .bool c.verify)]

def orElse {α : Type} (value? : Json → Option α) (absent : α) : Option Json → Option α
  | none => some absent
  | some v => value? v

def ofJson? (v : Json) : Option Config := do
  let [tieBreak, freezeSupport, verify] ← v.fields? ["tie_break", "freeze_support", "verify"] | none
  let c : Config := {}
  return ⟨← orElse TieBreak.ofJson? c.tieBreak tieBreak,
    ← orElse bool? c.freezeSupport freezeSupport, ← orElse bool? c.verify verify⟩

end Config

namespace Report

def toJson (r : Report) : Json := .ofRecord
  [("reduced", r.reduced.toJson), ("schedule", r.schedule.toJson),
    ("compressed", r.compressed.toJson), ("logical_qubits", .ofNat r.logicalQubits),
    ("uncompressed_width", .ofNat r.uncompressedWidth), ("width", .ofNat r.width),
    ("depth", .ofNat r.depth), ("volume", .ofNat r.volume), ("gates", .ofNat r.gates),
    ("releases", .ofNat r.releases)]

def ofJson? (v : Json) : Option Report := do
  let [reduced, schedule, compressed, logicalQubits, uncompressedWidth, width, depth, volume, gates,
    releases] ← v.record? ["reduced", "schedule", "compressed", "logical_qubits",
    "uncompressed_width", "width", "depth", "volume", "gates", "releases"] | none
  return {
    reduced := ← Circuit.ofJson? reduced
    schedule := ← Schedule.ofJson? schedule
    compressed := ← Circuit.ofJson? compressed
    logicalQubits := ← count? logicalQubits
    uncompressedWidth := ← count? uncompressedWidth
    width := ← count? width
    depth := ← count? depth
    volume := ← count? volume
    gates := ← count? gates
    releases := ← count? releases }

end Report

end Compression

namespace Lattice

namespace Coord

def toJson (c : Coord) : Json := .ofRecord [("x", .ofNat c.x.toNat), ("y", .ofNat c.y.toNat)]

def ofJson? (v : Json) : Option Coord := do
  let [x, y] ← v.record? ["x", "y"] | none
  return ⟨(← x.nat? (UInt32.size)).toUInt32, (← y.nat? (UInt32.size)).toUInt32⟩

end Coord

namespace Axis

def name : Axis → String
  | x => "x"
  | y => "y"

def ofName? : String → Option Axis
  | "x" => some x
  | "y" => some y
  | _ => none

def toJson (a : Axis) : Json := .ofName a.name

def ofJson? (v : Json) : Option Axis := do ofName? (← v.name?)

end Axis

end Lattice

end QubitReuse
