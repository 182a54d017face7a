import QubitReuse.Compression.Error
import QubitReuse.Cone.Progress
import QubitReuse.Schedule.Basic

/-!
Greedy rearrangement of a circuit into a schedule. The qubit whose past cone in what is left of the
circuit is narrowest goes next: its cone runs, and the qubit is released unless it is frozen.
-/

namespace QubitReuse

inductive TieBreak
  | lowestId
  | highestId
  deriving DecidableEq, Inhabited

namespace TieBreak

/-- Whether a cone met later, at a larger id, goes before the best one so far. -/
def prefers : TieBreak → Nat → Nat → Bool
  | lowestId, width, best => decide (width < best)
  | highestId, width, best => decide (width ≤ best)

end TieBreak

def TieBreak.select (t : TieBreak) (width : Qubit → Nat) (best : Option (Qubit × Nat)) (q : Qubit) :
    Option (Qubit × Nat) :=
  match best with
  | none => some (q, width q)
  | some (p, least) => if t.prefers (width q) least then some (q, width q) else some (p, least)

def Circuit.narrowest (c : Circuit) (t : TieBreak) : Option (Qubit × Nat) :=
  c.qubits.toList.foldl (t.select fun q => c.ancestorWidth (.single q)) none

theorem TieBreak.snd_foldl_select {t : TieBreak} {width : Qubit → Nat} {qs : List Qubit}
    {best : Option (Qubit × Nat)} (hb : ∀ p w, best = some (p, w) → w = width p)
    {q : Qubit} {w : Nat} (h : qs.foldl (t.select width) best = some (q, w)) : w = width q := by
  induction qs generalizing best with
  | nil => exact hb q w h
  | cons r qs ih =>
    refine ih (fun p v hp => ?_) h
    simp only [select] at hp
    split at hp
    · cases hp
      rfl
    · split at hp <;> cases hp
      · rfl
      · exact hb _ _ rfl

theorem Circuit.width_of_narrowest {c : Circuit} {t : TieBreak} {q : Qubit} {w : Nat}
    (h : c.narrowest t = some (q, w)) : w = c.ancestorWidth (.single q) :=
  TieBreak.snd_foldl_select (by simp) h

structure Retirement where
  qubit : Qubit
  cone : Circuit

namespace Retirement

def steps (frozen : QubitSet) (r : Retirement) : List Step :=
  (r.cone.layers.filter (!·.isEmpty)).map .block ++
    if r.qubit ∈ frozen then [] else [.release r.qubit]

end Retirement

namespace Circuit

def retirements (t : TieBreak) (c : Circuit) : Except CompressionError (List Retirement) :=
  match _hn : c.narrowest t with
  | none => .ok []
  | some (_, 0) => .error (.noProgress c.numGates)
  | some (q, _ + 1) =>
    let cone := c.pastCone (.single q)
    match _hs : c.subtract cone with
    | .error e => .error (.circuit e)
    | .ok rest => (retirements t rest).map (⟨q, cone⟩ :: ·)
termination_by c.numGates
decreasing_by exact numGates_subtract_pastCone_lt (width_of_narrowest _hn ▸ Nat.succ_pos _) _hs

def rearrange (c : Circuit) (frozen : QubitSet) (t : TieBreak) :
    Except CompressionError Schedule := do
  return ⟨(← c.retirements t).flatMap (·.steps frozen)⟩

end Circuit

end QubitReuse
