import Mathlib.Data.List.Basic
import QubitReuse.Proofs.Circuit.Difference
import QubitReuse.Schedule.Linearisation

namespace QubitReuse

def numbered (n : Nat) (ls : List Layer) : List (Nat × Gate) :=
  (ls.zipIdx n).flatMap fun (l, i) => l.map fun g => (i, g)

@[simp] theorem numbered_nil (n : Nat) : numbered n [] = [] := rfl

@[simp] theorem numbered_cons (n : Nat) (l : Layer) (ls : List Layer) :
    numbered n (l :: ls) = l.map (n, ·) ++ numbered (n + 1) ls := rfl

@[simp] theorem map_snd_numbered (n : Nat) (ls : List Layer) :
    (numbered n ls).map Prod.snd = ls.flatten := by
  induction ls generalizing n with
  | nil => rfl
  | cons l ls ih => simp [ih, Function.comp_def]

theorem le_of_mem_numbered {n : Nat} {ls : List Layer} {x : Nat × Gate} (h : x ∈ numbered n ls) :
    n ≤ x.1 := by
  induction ls generalizing n with
  | nil => simp at h
  | cons l ls ih =>
    rw [numbered_cons, List.mem_append] at h
    rcases h with h | h
    · obtain ⟨g, _, rfl⟩ := List.mem_map.1 h
      exact Nat.le_refl n
    · exact Nat.le_of_succ_le (ih h)

theorem pairwise_numbered (n : Nat) (ls : List Layer) :
    (numbered n ls).Pairwise (·.1 ≤ ·.1) := by
  induction ls generalizing n with
  | nil => exact .nil
  | cons l ls ih =>
    rw [numbered_cons]
    refine List.pairwise_append.2 ⟨?_, ih (n + 1), ?_⟩
    · exact List.pairwise_map.2 (List.pairwise_of_forall fun _ _ => Nat.le_refl n)
    · intro x hx y hy
      obtain ⟨g, _, rfl⟩ := List.mem_map.1 hx
      exact Nat.le_of_succ_le (le_of_mem_numbered hy)

theorem mem_layers_of_mem_numbered {n : Nat} {ls : List Layer} {x : Nat × Gate}
    (h : x ∈ numbered n ls) : ∃ l ∈ ls, x.2 ∈ l := by
  have hx : x.2 ∈ ls.flatten := map_snd_numbered n ls ▸ List.mem_map_of_mem h
  exact List.mem_flatten.1 hx

namespace Circuit

@[simp] theorem map_snd_layeredGates (c : Circuit) : c.layeredGates.map Prod.snd = c.gates :=
  map_snd_numbered 0 c.layers

theorem mem_gates_iff {c : Circuit} {g : Gate} : g ∈ c.gates ↔ ∃ i, (i, g) ∈ c.layeredGates := by
  rw [← map_snd_layeredGates, List.mem_map]
  constructor
  · rintro ⟨⟨i, g⟩, h, rfl⟩
    exact ⟨i, h⟩
  · rintro ⟨i, h⟩
    exact ⟨(i, g), h, rfl⟩

end Circuit

def unorientedAt (x : Nat × Gate) : Nat × Gate := (x.1, x.2.unoriented)

theorem inLayerOrder_unorientedAt {x y : Nat × Gate} :
    InLayerOrder (unorientedAt x) (unorientedAt y) ↔ InLayerOrder x y := by
  simp [InLayerOrder, unorientedAt]

theorem inLayerOrder_of_le {x y : Nat × Gate} (h : x.1 ≤ y.1) : InLayerOrder x y := fun _ => h

@[simp] theorem map_unorientedAt_layer (n : Nat) (l : Layer) :
    (l.map (n, ·)).map unorientedAt = l.unoriented.map (n, ·) := by
  simp [Layer.unoriented, Function.comp_def, unorientedAt]

end QubitReuse
