import QubitReuse.Schedule.Basic
import QubitReuse.Slot.Pool

namespace QubitReuse

structure SlotCircuit where
  circuit : Circuit
  width : Nat
  depth : Nat
  deriving DecidableEq

namespace SlotCircuit

def volume (c : SlotCircuit) : Nat := c.width * c.depth

end SlotCircuit

namespace Step

/-- A block without gates becomes no layer, any other step becomes one. -/
def place : Step → PoolM (List Layer)
  | block [] => return []
  | block l => return [← l.mapM (·.mapM Pool.acquire)]
  | release q => return [[.release (← Pool.release q)]]

def replay : Step → PoolM Unit
  | block l => Pool.acquireAll (Layer.ends l)
  | release q => do
    let _ ← Pool.release q

end Step

namespace Schedule

def place (s : Schedule) : PoolM (List Layer) := return (← s.steps.mapM Step.place).flatten

def replay (s : Schedule) : PoolM Unit := s.steps.forM Step.replay

def assignSlots (s : Schedule) : Except CompressionError SlotCircuit :=
  match s.place (.ofBound s.bound) with
  | .ok layers pool => .ok ⟨⟨layers⟩, pool.opened, layers.length⟩
  | .error e _ => .error e

end Schedule

end QubitReuse
