import QubitReuse.Gate

namespace QubitReuse

inductive GateFault
  | loop
  | outside (q : Qubit) (bound : Nat)
  deriving DecidableEq

namespace GateFault

def message : GateFault → String
  | loop => "both endpoints name the same qubit"
  | outside q bound => s!"{q.text} is outside the circuit bound {bound}"

end GateFault

inductive CircuitError
  | shapeMismatch (left right : Nat)
  | layerOutOfRange (layer depth : Nat)
  | invalidGate (gate : Gate) (fault : GateFault)
  deriving DecidableEq

namespace CircuitError

def message : CircuitError → String
  | shapeMismatch left right => s!"Circuit shape mismatch: {left} layers vs {right} layers"
  | layerOutOfRange layer depth => s!"Layer {layer} is out of range for a circuit of depth {depth}"
  | invalidGate gate fault => s!"Invalid gate {gate.text}: {fault.message}"

end CircuitError

def Gate.between (a b : Qubit) : Except CircuitError Gate :=
  if a = b then .error (.invalidGate (.pair a b) .loop) else .ok (.pair a b)

end QubitReuse
