import QubitReuse.Proofs.Cone.Algebra

namespace QubitReuse

def Circuit.active (c : Circuit) : Circuit := ⟨c.layers.filter (!·.isEmpty)⟩

namespace Sweep

theorem state_layers_filter (ls : List Layer) (s : Sweep) :
    (layers (ls.filter (!·.isEmpty)) s).2 = (layers ls s).2 := by
  induction ls with
  | nil => rfl
  | cons l ls ih =>
    cases l with
    | nil => exact ih
    | cons g l => simp [layers, ih]

theorem filter_layers_filter (ls : List Layer) (s : Sweep) :
    (layers (ls.filter (!·.isEmpty)) s).1.filter (!·.isEmpty) =
      (layers ls s).1.filter (!·.isEmpty) := by
  induction ls with
  | nil => rfl
  | cons l ls ih =>
    cases l with
    | nil => exact ih
    | cons g l => simp [layers, state_layers_filter, List.filter_cons, ih]

theorem filter_rest_filter (ls : List Layer) (s : Sweep) :
    (List.zipWith Layer.minus (ls.filter (!·.isEmpty))
        (layers (ls.filter (!·.isEmpty)) s).1).filter (!·.isEmpty) =
      (List.zipWith Layer.minus ls (layers ls s).1).filter (!·.isEmpty) := by
  induction ls with
  | nil => rfl
  | cons l ls ih =>
    cases l with
    | nil => exact ih
    | cons g l => simp [layers, state_layers_filter, List.filter_cons, ih]

end Sweep

namespace Circuit

variable {c c' rest rest' : Circuit} {s : QubitSet}

@[simp] theorem gates_active (c : Circuit) : c.active.gates = c.gates :=
  List.flatten_filter_not_isEmpty

theorem start_active (c : Circuit) (s : QubitSet) : Sweep.start c.active s = .start c s := by
  have hbound : c.active.bound = c.bound := by rw [bound, bound, ends, ends, gates_active]
  rw [Sweep.start, Sweep.start, hbound]

theorem active_pastCone_active (c : Circuit) (s : QubitSet) :
    (c.active.pastCone s).active = (c.pastCone s).active := by
  rw [pastCone, pastCone, start_active]
  exact congrArg mk (Sweep.filter_layers_filter _ _)

theorem active_of_subtract_active (hs : c.subtract (c.pastCone s) = .ok rest)
    (hs' : c.active.subtract (c.active.pastCone s) = .ok rest') : rest'.active = rest.active := by
  rw [subtract_pastCone, Except.ok.injEq] at hs hs'
  subst hs hs'
  rw [pastCone, pastCone, start_active]
  exact congrArg mk (Sweep.filter_rest_filter _ _)

section

variable (h : c'.active = c.active)

include h

theorem gates_of_active : c'.gates = c.gates := by rw [← gates_active c', h, gates_active]

theorem qubits_of_active : c'.qubits = c.qubits := by
  rw [qubits, qubits, ends, ends, gates_of_active h]

theorem validate_of_active : c'.validate = c.validate := by
  rw [validate, validate, gates_of_active h]

theorem width_of_active : c'.width = c.width := by
  have hle : ∀ {c c' : Circuit}, c'.active = c.active → c'.width ≤ c.width := by
    intro c c' h
    apply width_le
    intro l hl
    cases l with
    | nil => exact Nat.zero_le _
    | cons g l =>
      have hactive : g :: l ∈ c'.active.layers := List.mem_filter.2 ⟨hl, rfl⟩
      rw [h] at hactive
      exact List.le_max?_getD_of_mem (List.mem_map_of_mem (List.mem_filter.1 hactive).1)
  exact Nat.le_antisymm (hle h) (hle h.symm)

theorem pastCone_of_active (s : QubitSet) : (c'.pastCone s).active = (c.pastCone s).active := by
  rw [← active_pastCone_active, h, active_pastCone_active]

theorem rest_of_active (hs : c.subtract (c.pastCone s) = .ok rest)
    (hs' : c'.subtract (c'.pastCone s) = .ok rest') : rest'.active = rest.active := by
  obtain ⟨mid, hmid⟩ : ∃ mid, c.active.subtract (c.active.pastCone s) = .ok mid :=
    ⟨_, subtract_pastCone _ _⟩
  rw [← active_of_subtract_active hs hmid]
  rw [← h] at hmid
  exact (active_of_subtract_active hs' hmid).symm

end

end Circuit

end QubitReuse
