import QubitReuse.Schedule.Order
import QubitReuse.Schedule.Retirement
import QubitReuse.Slot.Assign

namespace QubitReuse

namespace Compression

structure Config where
  tieBreak : TieBreak := .lowestId
  freezeSupport : Bool := true
  verify : Bool := true
  deriving DecidableEq, Inhabited

structure Report where
  reduced : Circuit
  schedule : Schedule
  compressed : Circuit
  logicalQubits : Nat
  uncompressedWidth : Nat
  width : Nat
  depth : Nat
  volume : Nat
  gates : Nat
  releases : Nat
  deriving DecidableEq

namespace Report

def of (reduced : Circuit) (schedule : Schedule) (slots : SlotCircuit) : Report where
  reduced := reduced
  schedule := schedule
  compressed := slots.circuit
  logicalQubits := reduced.qubits.size
  uncompressedWidth := reduced.width
  width := slots.width
  depth := slots.depth
  volume := slots.volume
  gates := slots.circuit.gates.countP Gate.isPair
  releases := slots.circuit.gates.countP Gate.isRelease

end Report

def compressReduced (config : Config) (reduced : Circuit) (frozen : QubitSet) :
    Except CompressionError Report := do
  let schedule ← reduced.rearrange frozen config.tieBreak
  if config.verify then
    let _ ← schedule.checkOrder reduced
  return .of reduced schedule (← schedule.assignSlots)

end Compression

open Compression

namespace Circuit

/-- Compresses the past cone of the support. A loop anywhere in the circuit is refused. -/
def compressCone (c : Circuit) (support : QubitSet) (config : Config := {}) :
    Except CompressionError Report := do
  c.validate.mapError .circuit
  compressReduced config (c.pastCone support) (if config.freezeSupport then support else .empty)

def compress (c : Circuit) (frozen : QubitSet) (config : Config := {}) :
    Except CompressionError Report := do
  c.validate.mapError .circuit
  compressReduced config c frozen

def compressedWidth (c : Circuit) (frozen : QubitSet) : Except CompressionError Nat :=
  (c.compress frozen).map (·.width)

def compressedDepth (c : Circuit) (frozen : QubitSet) : Except CompressionError Nat :=
  (c.compress frozen).map (·.depth)

end Circuit

end QubitReuse
