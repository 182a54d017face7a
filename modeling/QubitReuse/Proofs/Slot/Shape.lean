import Mathlib.Algebra.GroupWithZero.Nat
import Mathlib.Data.List.Forall2
import QubitReuse.Proofs.Slot.Simulation

namespace QubitReuse

/-- The layers that a step becomes, under the names of the schedule. -/
def Step.layers : Step → List Layer
  | block [] => []
  | block l => [l]
  | release q => [[.release q]]

theorem Gate.isRelease_map (f : Qubit → Qubit) (g : Gate) : (g.map f).isRelease = g.isRelease := by
  cases g <;> rfl

theorem Gate.isPair_map (f : Qubit → Qubit) (g : Gate) : (g.map f).isPair = g.isPair :=
  congrArg not (g.isRelease_map f)

def Layer.Renames (l' l : Layer) : Prop := ∃ f, l' = l.map (Gate.map f)

theorem Step.PlacedAs.renames {p p' : Pool} {st : Step} {ls : List Layer}
    (h : st.PlacedAs p p' ls) : List.Forall₂ Layer.Renames ls st.layers := by
  cases h with
  | skip => exact .nil
  | @block l f hne _ _ =>
    cases l with
    | nil => exact absurd rfl hne
    | cons g l => exact .cons ⟨f, rfl⟩ .nil
  | @release q s _ => exact .cons ⟨fun _ => s, rfl⟩ .nil

namespace Schedule

def layers (s : Schedule) : List Layer := s.steps.flatMap Step.layers

theorem renames_of_place {steps : List Step} {p p' : Pool} {ls : List Layer} (hp : p.Sound)
    (h : place ⟨steps⟩ p = .ok ls p') : List.Forall₂ Layer.Renames ls (layers ⟨steps⟩) := by
  induction steps generalizing p ls with
  | nil =>
    rw [← (place_nil_iff.1 h).1]
    exact .nil
  | cons st steps ih =>
    have ⟨ls₁, p₁, ls₂, hst, hrest, hls⟩ := place_cons_iff.1 h
    rw [← hls]
    exact List.rel_append (Step.placedAs_of_place hp hst).renames
      (ih (Step.sound_of_place hp hst) hrest)

def total (s : Schedule) (w : Layer → Nat) : Nat := (s.layers.map w).sum

end Schedule

def Layer.IgnoresNames (w : Layer → Nat) : Prop := ∀ l f, w (l.map (Gate.map f)) = w l

theorem Layer.ignoresNames_countP {p : Gate → Bool} (hp : ∀ f g, p (g.map f) = p g) :
    IgnoresNames (·.countP p) := by
  intro l f
  dsimp only
  rw [List.countP_map]
  exact congrFun (congrArg List.countP (funext (hp f))) l

theorem map_of_renames {w : Layer → Nat} (hw : Layer.IgnoresNames w) {ls' ls : List Layer}
    (h : List.Forall₂ Layer.Renames ls' ls) : ls'.map w = ls.map w := by
  induction h with
  | nil => rfl
  | cons hl _ ih =>
    obtain ⟨f, rfl⟩ := hl
    rw [List.map_cons, List.map_cons, hw, ih]

namespace Schedule

variable {s : Schedule} {out : SlotCircuit}

theorem map_layers_of_assignSlots (h : s.assignSlots = .ok out) {w : Layer → Nat}
    (hw : Layer.IgnoresNames w) : out.circuit.layers.map w = s.layers.map w := by
  have ⟨_, hplace⟩ := place_of_assignSlots h
  exact map_of_renames hw (renames_of_place (Pool.sound_ofBound s.bound) hplace)

theorem total_of_assignSlots (h : s.assignSlots = .ok out) {w : Layer → Nat}
    (hw : Layer.IgnoresNames w) : (out.circuit.layers.map w).sum = s.total w :=
  congrArg List.sum (map_layers_of_assignSlots h hw)

theorem depth_of_assignSlots (h : s.assignSlots = .ok out) : out.depth = s.total fun _ => 1 := by
  rw [← total_of_assignSlots h (fun _ _ => rfl)]
  obtain ⟨layers, p, -, rfl⟩ := exists_place_of_assignSlots h
  simp

theorem countP_gates_of_assignSlots (h : s.assignSlots = .ok out) {p : Gate → Bool}
    (hp : ∀ f g, p (g.map f) = p g) : out.circuit.gates.countP p = s.total (·.countP p) := by
  rw [← total_of_assignSlots h (Layer.ignoresNames_countP hp), Circuit.gates, List.countP_flatten]

end Schedule

end QubitReuse
