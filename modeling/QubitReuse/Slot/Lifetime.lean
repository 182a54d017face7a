import QubitReuse.Schedule.Basic

namespace QubitReuse

def Step.keepsLive (q : Qubit) (live : Bool) : Step → Bool
  | block l => live || decide (q ∈ Layer.ends l)
  | release p => live && decide (q ≠ p)

def isLive (steps : List Step) (q : Qubit) : Bool := steps.foldl (Step.keepsLive q) false

def liveQubits (steps : List Step) : List Qubit :=
  (Schedule.qubits ⟨steps⟩).toList.filter (isLive steps)

/-- Which lifetime of a qubit comes after these steps, or goes on. -/
def lifetime (steps : List Step) (q : Qubit) : Nat := steps.count (.release q)

namespace Schedule

def peakLive (s : Schedule) : Nat :=
  ((List.range (s.steps.length + 1)).map fun k => (liveQubits (s.steps.take k)).length).max?.getD 0

def ReleasesLive (s : Schedule) : Prop :=
  ∀ before q after, s.steps = before ++ .release q :: after → isLive before q

end Schedule

end QubitReuse
