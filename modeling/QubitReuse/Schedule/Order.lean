import QubitReuse.Compression.Error
import QubitReuse.Schedule.Basic

/-!
Checking a schedule against its circuit. Gates of one qubit are ordered by their layers, gates of
one layer are not ordered; so on each qubit the schedule has to run the layers one after the
other, the gates of each in any order. After a release its qubit has to rest.
-/

namespace QubitReuse

/-- The gates on a qubit, each as often as it touches it. -/
def wire (q : Qubit) (gs : List Gate) : List Gate :=
  gs.flatMap fun g => .replicate (g.ends.count q) g

structure Strand where
  layer : Nat
  gates : List Gate

def Circuit.strands (c : Circuit) (q : Qubit) : List Strand :=
  (c.layers.zipIdx.map fun (l, i) => ⟨i, wire q l⟩).filter (!·.gates.isEmpty)

namespace Schedule

def matchStrands : List Strand → List Gate → Except OrderFault Unit
  | [], [] => .ok ()
  | [], gs => .error (.surplus gs.length)
  | s :: ss, gs =>
    if gs.length < s.gates.length then .error (.missing s.gates.length s.layer gs.length)
    else if (Layer.unoriented s.gates).isPerm (Layer.unoriented (gs.take s.gates.length)) then
      matchStrands ss (gs.drop s.gates.length)
    else .error (.scattered s.layer)

def checkReleases (position : Nat) (released : List (Qubit × Nat)) :
    List Step → Except CompressionError Nat
  | [] => .ok released.length
  | .release q :: steps =>
    if (released.lookup q).isSome then .error (.orderViolation q (.releasedTwice position))
    else checkReleases (position + 1) ((q, position) :: released) steps
  | .block l :: steps =>
    match (Layer.ends l).findSome? fun q => (released.lookup q).map fun since => (q, since) with
    | some (q, since) => .error (.orderViolation q (.usedAfterRelease position since))
    | none => checkReleases (position + 1) released steps

end Schedule

structure OrderReport where
  passed : Bool
  qubitsChecked : Nat
  gatesChecked : Nat
  releasesFound : Nat
  deriving DecidableEq

namespace Schedule

/--
Accepts the schedules that run the circuit. The circuit's qubits are examined first, in ascending
order, then those of the schedule alone, then the releases.
-/
def checkOrder (s : Schedule) (c : Circuit) : Except CompressionError OrderReport := do
  c.qubits.toList.forM fun q =>
    (matchStrands (c.strands q) (wire q s.gates)).mapError (.orderViolation q)
  let scheduled := QubitSet.ofList (s.gates.flatMap Gate.ends)
  match scheduled.toList.find? fun q => decide (q ∉ c.qubits) with
  | some q => .error (.orderViolation q (.foreign (wire q s.gates).length))
  | none =>
    let releases ← checkReleases 0 [] s.steps
    return ⟨true, c.qubits.size, c.numGates, releases⟩

end Schedule

end QubitReuse
