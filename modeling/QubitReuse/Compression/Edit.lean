import QubitReuse.Compression.Report

namespace QubitReuse.Circuit

inductive Edit
  | addPair (layer : Nat) (a b : Qubit)
  | addRelease (layer : Nat) (q : Qubit)
  | subtract (d : Circuit)
  | pastCone (support : QubitSet)
  | compress (frozen : QubitSet) (config : Compression.Config)

def replace (f : Circuit → Except CompressionError Circuit) :
    EStateM CompressionError Circuit Unit := do
  set (← ofExcept (f (← get)))

def Edit.run : Edit → EStateM CompressionError Circuit Unit
  | addPair layer a b => .adaptExcept .circuit (CircuitM.addPair layer a b)
  | addRelease layer q => .adaptExcept .circuit (CircuitM.addRelease layer q)
  | subtract d => replace fun c => (c.subtract d).mapError .circuit
  | pastCone support => replace fun c => .ok (c.pastCone support)
  | compress frozen config => replace fun c => (c.compress frozen config).map (·.compressed)

def edit (c : Circuit) (e : Edit) : Circuit :=
  match e.run c with
  | .ok _ d => d
  | .error _ d => d

inductive Constructed : Circuit → Prop
  | empty : Constructed .empty
  | idle (depth : Nat) : Constructed (.idle depth)
  | ofLayers {layers : List Layer} {c : Circuit} : ofLayers layers = .ok c → Constructed c
  | ofPairs {layers : List (List (Qubit × Qubit))} {c : Circuit} : ofPairs layers = .ok c →
    Constructed c

inductive Reachable : Circuit → Prop
  | construct {c : Circuit} : c.Constructed → Reachable c
  | edit {c : Circuit} (e : Edit) : Reachable c → Reachable (c.edit e)

end QubitReuse.Circuit
