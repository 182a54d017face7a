import QubitReuse.Circuit.Execution
import QubitReuse.Cone.Reach
import QubitReuse.Json.Codec
import QubitReuse.Lattice.Ring
import QubitReuse.Schedule.Culprit
import QubitReuse.Schedule.Linearisation
import QubitReuse.Slot.Lifetime
import QubitReuse.Proofs.Cone.Closure
import QubitReuse.Proofs.Schedule.Wire
import QubitReuse.Proofs.Schedule.Gluing
import QubitReuse.Proofs.Schedule.Linearisation
import QubitReuse.Proofs.Schedule.Bijection
import QubitReuse.Proofs.Schedule.Exhaustion
import QubitReuse.Proofs.Schedule.Rearrangement
import QubitReuse.Proofs.Slot.Pool
import QubitReuse.Proofs.Slot.Replay
import QubitReuse.Proofs.Slot.Simulation
import QubitReuse.Proofs.Slot.Placing
import QubitReuse.Proofs.Circuit.Commuting
import QubitReuse.Proofs.Cone.Values
import QubitReuse.Proofs.Schedule.Values
import QubitReuse.Proofs.Compression.Meaning
import QubitReuse.Proofs.Slot.Account
import QubitReuse.Proofs.Schedule.Lifetime
import QubitReuse.Proofs.Slot.Width
import QubitReuse.Proofs.Cone.Reach
import QubitReuse.Proofs.Circuit.Reordering
import QubitReuse.Proofs.Schedule.Acceptance
import QubitReuse.Proofs.Schedule.Orientation
import QubitReuse.Proofs.Schedule.Freezing
import QubitReuse.Proofs.Slot.Shape
import QubitReuse.Proofs.Compression.Freezing
import QubitReuse.Proofs.Cone.Width
import QubitReuse.Proofs.Lattice.Ring
import QubitReuse.Proofs.Lattice.Narrow
import QubitReuse.Proofs.Schedule.Selection
import QubitReuse.Proofs.Schedule.Lockstep
import QubitReuse.Proofs.Slot.Refusal
import QubitReuse.Proofs.Schedule.Counts
import QubitReuse.Proofs.Compression.Figures
import QubitReuse.Proofs.Cone.Matching
import QubitReuse.Proofs.Schedule.Renaming
import QubitReuse.Proofs.Slot.Renaming
import QubitReuse.Proofs.Compression.Renaming
import QubitReuse.Proofs.Schedule.Alike
import QubitReuse.Proofs.Compression.Alike
import QubitReuse.Proofs.Schedule.Reordering
import QubitReuse.Proofs.Compression.Reordering
import QubitReuse.Proofs.Compression.Edit
import QubitReuse.Proofs.Lattice.RingShape
import QubitReuse.Proofs.Json.Codec
import QubitReuse.Proofs.Cone.Algebra
import QubitReuse.Proofs.Compression.Reduction
import QubitReuse.Proofs.Lattice.TorusShape
import QubitReuse.Proofs.Cone.Subtraction
import QubitReuse.Proofs.Slot.Naming
import QubitReuse.Proofs.Cone.Padding
import QubitReuse.Proofs.Compression.Padding
import QubitReuse.Proofs.Schedule.Culprit
import QubitReuse.Proofs.Lattice.Product
import QubitReuse.Proofs.Lattice.Patch
import QubitReuse.Proofs.Schedule.Round
