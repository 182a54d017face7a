import QubitReuse.Circuit.Basic

namespace QubitReuse

namespace Layer

/-- Drops the first gates that are alike to gates of the second layer, one for each of them. -/
def minus : Layer → Layer → Layer
  | [], _ => []
  | g :: gs, hs =>
    if hs.any fun h => decide (g.Alike h) then minus gs (hs.eraseP fun h => decide (g.Alike h))
    else g :: minus gs hs

theorem length_minus_le (gs hs : Layer) : (minus gs hs).length ≤ gs.length := by
  induction gs generalizing hs with
  | nil => simp [minus]
  | cons g gs ih =>
    simp only [minus]
    split
    · exact Nat.le_succ_of_le (ih _)
    · exact Nat.succ_le_succ (ih _)

theorem length_minus_lt {g : Gate} {gs hs : Layer} (hg : g ∈ gs) (hh : g ∈ hs) :
    (minus gs hs).length < gs.length := by
  induction gs generalizing hs with
  | nil => simp at hg
  | cons f gs ih =>
    simp only [minus]
    split
    · exact Nat.lt_succ_of_le (length_minus_le _ _)
    · rename_i hf
      rcases List.mem_cons.1 hg with rfl | hg
      · exact absurd (List.any_eq_true.2 ⟨g, hh, by simp [Gate.Alike]⟩) hf
      · exact Nat.succ_lt_succ (ih hg hh)

end Layer

namespace Circuit

def subtract (c d : Circuit) : Except CircuitError Circuit :=
  if c.depth = d.depth then .ok ⟨List.zipWith Layer.minus c.layers d.layers⟩
  else .error (.shapeMismatch c.depth d.depth)

end Circuit

end QubitReuse
