import QubitReuse.Lattice.Scale
import QubitReuse.QubitSet

namespace QubitReuse.Lattice.Ring

def maxScales : UInt32 := 31

def sites (n s : UInt32) : Except LatticeError (List Qubit) := do
  checkScale n s maxScales
  return (below (1 <<< s)).map fun i => ⟨i * (1 <<< (n - s))⟩

def pairUp : List Qubit → List (Qubit × Qubit)
  | a :: b :: rest => (a, b) :: pairUp rest
  | _ => []

/-- Every other bond between neighbouring sites of a scale; the last odd bond closes the ring. -/
def bonds (p : Parity) (n s : UInt32) : Except LatticeError Layer := do
  let sites ← sites n s
  (pairUp (sites.rotateLeft p.offset.toNat)).mapM fun (a, b) =>
    (Gate.between a b).mapError .circuit

def dmera (n : UInt32) (d : Nat) : Except LatticeError Circuit := do
  checkScales n maxScales
  let layers ← (scales n).mapM fun s => return cycle [← bonds .even n s, ← bonds .odd n s] d
  return ⟨layers.flatten⟩

def neighborPair (x n : UInt32) : Except LatticeError QubitSet := do
  checkScales n maxScales
  let length := 1 <<< n
  return .ofList [⟨x % length⟩, ⟨(x % length + 1) % length⟩]

end QubitReuse.Lattice.Ring
