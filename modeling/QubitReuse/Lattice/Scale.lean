import QubitReuse.Circuit.Basic

/-!
Scales of a lattice. Scale `s` of `n` holds every `2 ^ (n - s)`-th site along each direction, so
scale one is the coarsest and scale `n` holds all sites.
-/

namespace QubitReuse

namespace Lattice

inductive LatticeError
  | scaleOutOfRange (scale scales : UInt32)
  | tooManyScales (scales max : UInt32)
  | coordOutOfRange (x y side : UInt32)
  | circuit (cause : CircuitError)
  deriving DecidableEq

namespace LatticeError

def message : LatticeError → String
  | scaleOutOfRange scale scales => s!"Scale {scale.toNat} is outside 1..={scales.toNat}"
  | tooManyScales scales max =>
    s!"{scales.toNat} scales exceed the supported maximum of {max.toNat}"
  | coordOutOfRange x y side =>
    s!"Coordinate ({x.toNat}, {y.toNat}) is outside a lattice of side {side.toNat}"
  | circuit cause => s!"IR error: {cause.message}"

end LatticeError

def checkScales (n max : UInt32) : Except LatticeError Unit :=
  if max < n then .error (.tooManyScales n max) else .ok ()

def checkScale (n s max : UInt32) : Except LatticeError Unit := do
  checkScales n max
  if s = 0 ∨ n < s then .error (.scaleOutOfRange s n) else .ok ()

def below (n : UInt32) : List UInt32 := (List.range n.toNat).map (·.toUInt32)

def scales (n : UInt32) : List UInt32 := (below n).map (· + 1)

inductive Parity
  | even
  | odd
  deriving DecidableEq

namespace Parity

def offset : Parity → UInt32
  | even => 0
  | odd => 1

end Parity

def cycle (layers : List Layer) (d : Nat) : List Layer :=
  (List.range d).filterMap fun j => layers[j % layers.length]?

end Lattice

end QubitReuse
