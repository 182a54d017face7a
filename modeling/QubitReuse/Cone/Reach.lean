import QubitReuse.Circuit.Basic

namespace QubitReuse

structure Place where
  layer : Nat
  position : Nat
  deriving DecidableEq

def Circuit.gateAt? (c : Circuit) (p : Place) : Option Gate :=
  (c.layers[p.layer]?.getD [])[p.position]?

/-- Met later by a sweep that goes back layer by layer and, in a layer, in stored order. -/
def Place.After (p p' : Place) : Prop :=
  p.layer < p'.layer ∨ p.layer = p'.layer ∧ p'.position < p.position

inductive Reaches (c : Circuit) (support : QubitSet) : Place → Prop
  | touch {p g q} : c.gateAt? p = some g → g.Touches q → q ∈ support → Reaches c support p
  | chain {p p' g g' q} : Reaches c support p' → c.gateAt? p' = some g' → c.gateAt? p = some g →
      g'.Touches q → g.Touches q → p.After p' → Reaches c support p

end QubitReuse
