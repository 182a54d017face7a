import QubitReuse.Schedule.Basic

namespace QubitReuse

def Circuit.layeredGates (c : Circuit) : List (Nat × Gate) :=
  c.layers.zipIdx.flatMap fun (l, i) => l.map fun g => (i, g)

def InLayerOrder (a b : Nat × Gate) : Prop :=
  (∃ q, a.2.Touches q ∧ b.2.Touches q) → a.1 ≤ b.1

namespace Schedule

/-- The blocks run the circuit's gates, up to orientation, in an order that its layers allow. -/
def Linearises (s : Schedule) (c : Circuit) : Prop :=
  ∃ order : List (Nat × Gate), order.Perm c.layeredGates ∧
    order.map (·.2.unoriented) = s.gates.map Gate.unoriented ∧
    order.Pairwise InLayerOrder

def RestsAfterRelease (s : Schedule) : Prop :=
  s.steps.Pairwise fun a b => ∀ q, a = .release q → q ∉ b.qubits

end Schedule

end QubitReuse
