import QubitReuse.Lattice.Scale
import QubitReuse.QubitSet

namespace QubitReuse.Lattice

structure Coord where
  x : UInt32
  y : UInt32
  deriving DecidableEq, Inhabited

inductive Axis
  | x
  | y
  deriving DecidableEq, Inhabited

namespace Torus

def maxScales : UInt32 := 15

def linearIndex (p : Coord) (n : UInt32) : Except LatticeError Qubit := do
  checkScales n maxScales
  let side := 1 <<< n
  if p.x < side ∧ p.y < side then return ⟨p.x + side * p.y⟩
  else .error (.coordOutOfRange p.x p.y side)

def site (n s i j : UInt32) : Coord :=
  ⟨(i % (1 <<< s)) * (1 <<< (n - s)), (j % (1 <<< s)) * (1 <<< (n - s))⟩

def sites (n s : UInt32) : Except LatticeError (List Coord) := do
  checkScale n s maxScales
  return (below (1 <<< s)).flatMap fun i => (below (1 <<< s)).map fun j => site n s i j

def bond (n s : UInt32) (axis : Axis) (i j : UInt32) : Except LatticeError Gate := do
  let first ← linearIndex (site n s i j) n
  let second ← match axis with
    | .x => linearIndex (site n s (i + 1) j) n
    | .y => linearIndex (site n s i (j + 1)) n
  (Gate.between first second).mapError .circuit

def bonds (p : Parity) (axis : Axis) (n s : UInt32) : Except LatticeError Layer := do
  checkScale n s maxScales
  let all := below (1 <<< s)
  let half := (below (1 <<< (s - 1))).map (2 * · + p.offset)
  match axis with
  | .x => (half.flatMap fun i => all.map fun j => (i, j)).mapM fun (i, j) => bond n s .x i j
  | .y => (all.flatMap fun i => half.map fun j => (i, j)).mapM fun (i, j) => bond n s .y i j

def dmera (n : UInt32) (d : Nat) : Except LatticeError Circuit := do
  checkScales n maxScales
  let layers ← (scales n).mapM fun s => do
    let kinds := [← bonds .even .x n s, ← bonds .even .y n s, ← bonds .odd .x n s,
      ← bonds .odd .y n s]
    return cycle kinds d
  return ⟨layers.flatten⟩

def neighborPair (p : Coord) (axis : Axis) (n : UInt32) : Except LatticeError QubitSet := do
  let first ← linearIndex p n
  let side := 1 <<< n
  let next := match axis with
    | .x => ⟨(p.x + 1) % side, p.y⟩
    | .y => ⟨p.x, (p.y + 1) % side⟩
  return .ofList [first, ← linearIndex next n]

/-- The `l` by `l` sites from a corner on, around the torus, or all of them if there are fewer. -/
def patch (origin : Coord) (l n : UInt32) : Except LatticeError QubitSet := do
  let _ ← linearIndex origin n
  let side := 1 <<< n
  let extent := below (min l side)
  let sites ← (extent.flatMap fun dx => extent.map fun dy =>
    (⟨(origin.x + dx) % side, (origin.y + dy) % side⟩ : Coord)).mapM (linearIndex · n)
  return .ofList sites

def validate (c : Circuit) (n : UInt32) : Except LatticeError Unit := do
  checkScales n maxScales
  (c.validateBound (1 <<< (2 * n.toNat))).mapError .circuit

end Torus

end QubitReuse.Lattice
