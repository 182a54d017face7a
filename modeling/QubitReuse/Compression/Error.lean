import QubitReuse.Circuit.Error

namespace QubitReuse

inductive OrderFault
  | missing (needed layer left : Nat)
  | scattered (layer : Nat)
  | surplus (count : Nat)
  | foreign (count : Nat)
  | releasedTwice (position : Nat)
  | usedAfterRelease (position released : Nat)
  deriving DecidableEq

namespace OrderFault

def message : OrderFault → String
  | missing needed layer left =>
    s!"{needed} gates of layer {layer} on this qubit, only {left} left in the schedule"
  | scattered layer => s!"gates of layer {layer} are not scheduled together after earlier layers"
  | surplus count => s!"{count} scheduled gates missing from the source"
  | foreign count => s!"{count} scheduled gates on a qubit absent from the source"
  | releasedTwice position => s!"released twice, again at item {position}"
  | usedAfterRelease position released =>
    s!"used at item {position} after release at item {released}"

end OrderFault

inductive CompressionError
  | circuit (cause : CircuitError)
  | noProgress (remaining : Nat)
  | slotsExhausted (qubit : Qubit) (bound : Nat)
  | unheldRelease (qubit : Qubit)
  | orderViolation (qubit : Qubit) (fault : OrderFault)
  deriving DecidableEq

namespace CompressionError

def message : CompressionError → String
  | circuit cause => s!"IR error: {cause.message}"
  | noProgress remaining => s!"Rearrangement made no progress with {remaining} gates left"
  | slotsExhausted qubit bound => s!"No physical slot left for {qubit.text} (bound {bound})"
  | unheldRelease qubit => s!"Release of {qubit.text} which holds no physical slot"
  | orderViolation qubit fault =>
    s!"Schedule violates causal order on {qubit.text}: {fault.message}"

/-- Only a faulty circuit can be the caller's doing. -/
def isInternal : CompressionError → Bool
  | circuit _ => false
  | _ => true

end CompressionError

end QubitReuse
