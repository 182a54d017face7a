import QubitReuse.Cone.Basic

namespace QubitReuse

namespace Sweep

theorem reached_layer {l : Layer} {s : Sweep} (h : (layer l s).1 = []) :
    (layer l s).2.reached = s.reached := by
  induction l with
  | nil => rfl
  | cons g gs ih =>
    simp only [layer] at h ⊢
    split at h <;> rename_i hg
    · cases h
    · simp only [hg] at *
      exact ih h

theorem reached_layers {ls : List Layer} {s : Sweep} (h : ∀ l ∈ (layers ls s).1, l = []) :
    (layers ls s).2.reached = s.reached := by
  induction ls with
  | nil => rfl
  | cons l ls ih =>
    simp only [layers, List.mem_cons, forall_eq_or_imp] at h ⊢
    rw [reached_layer h.1, ih h.2]

theorem sublist_layer (l : Layer) (s : Sweep) : (layer l s).1.Sublist l := by
  induction l generalizing s with
  | nil => exact .slnil
  | cons g gs ih =>
    simp only [layer]
    split
    · exact (ih _).cons_cons g
    · exact (ih _).cons g

@[simp] theorem length_layers (ls : List Layer) (s : Sweep) :
    (layers ls s).1.length = ls.length := by
  induction ls with
  | nil => rfl
  | cons l ls ih => simp [layers, ih]

end Sweep

namespace Circuit

@[simp] theorem depth_pastCone (c : Circuit) (support : QubitSet) :
    (c.pastCone support).depth = c.depth := by
  simp [depth, pastCone]

end Circuit

theorem length_flatten_minus_layers_le (ls : List Layer) (s : Sweep) :
    (List.zipWith Layer.minus ls (Sweep.layers ls s).1).flatten.length ≤ ls.flatten.length := by
  induction ls with
  | nil => simp
  | cons l ls ih =>
    rw [Sweep.layers, List.zipWith_cons_cons, List.flatten_cons, List.flatten_cons,
      List.length_append, List.length_append]
    exact Nat.add_le_add (Layer.length_minus_le _ _) ih

theorem length_flatten_minus_layers_lt {ls : List Layer} {s : Sweep}
    (h : ∃ l ∈ (Sweep.layers ls s).1, l ≠ []) :
    (List.zipWith Layer.minus ls (Sweep.layers ls s).1).flatten.length < ls.flatten.length := by
  induction ls with
  | nil => simp [Sweep.layers] at h
  | cons l ls ih =>
    simp only [Sweep.layers, List.mem_cons, exists_eq_or_imp] at h
    rw [Sweep.layers, List.zipWith_cons_cons, List.flatten_cons, List.flatten_cons,
      List.length_append, List.length_append]
    rcases h with h | h
    · obtain ⟨g, hg⟩ := List.exists_mem_of_ne_nil _ h
      exact Nat.add_lt_add_of_lt_of_le
        (Layer.length_minus_lt ((Sweep.sublist_layer _ _).subset hg) hg)
        (length_flatten_minus_layers_le ls s)
    · exact Nat.add_lt_add_of_le_of_lt (Layer.length_minus_le _ _) (ih h)

namespace Circuit

theorem numGates_subtract_pastCone_lt {c rest : Circuit} {support : QubitSet}
    (hw : 0 < c.ancestorWidth support) (h : c.subtract (c.pastCone support) = .ok rest) :
    rest.numGates < c.numGates := by
  simp only [subtract, depth_pastCone, ↓reduceIte, Except.ok.injEq] at h
  subst h
  refine length_flatten_minus_layers_lt (Classical.byContradiction fun hn => ?_)
  have hnil : ∀ l ∈ (Sweep.layers c.layers (.start c support)).1, l = [] := by
    intro l hl
    exact Classical.byContradiction fun hne => hn ⟨l, hl, hne⟩
  rw [ancestorWidth, Sweep.reached_layers hnil] at hw
  simp [Sweep.start] at hw

end Circuit

end QubitReuse
