import QubitReuse.Cone.Progress
import QubitReuse.Proofs.Circuit.Layered

/-!
What a sweep keeps. A kept gate makes its qubits live, and of the gates on a live qubit none is left
behind; so on each qubit the cone takes all layers but the last one it meets there as a whole.
-/

namespace QubitReuse

namespace Sweep

section Rows

variable {row : Sweep → LiveSet}

theorem contains_layer
    (hrow : ∀ (s : Sweep) (g : Gate), row (s.absorb g) = g.ends.foldl .insert (row s))
    {l : Layer} {s : Sweep} {q : Qubit} :
    (row (layer l s).2).contains q = true ↔
      (row s).contains q = true ∨ ∃ g ∈ (layer l s).1, g.Touches q := by
  induction l generalizing s with
  | nil => simp [layer]
  | cons g gs ih =>
    rw [layer]
    split
    · rw [ih, hrow, LiveSet.contains_foldl_insert, Bool.or_eq_true, decide_eq_true_eq]
      simp only [List.mem_cons, exists_eq_or_imp]
      rw [or_assoc, or_left_comm]
      rfl
    · exact ih

theorem contains_layers
    (hrow : ∀ (s : Sweep) (g : Gate), row (s.absorb g) = g.ends.foldl .insert (row s))
    {ls : List Layer} {s : Sweep} {q : Qubit} :
    (row (layers ls s).2).contains q = true ↔
      (row s).contains q = true ∨ ∃ l ∈ (layers ls s).1, ∃ g ∈ l, g.Touches q := by
  induction ls with
  | nil => simp [layers]
  | cons l ls ih =>
    simp only [layers, contains_layer hrow, ih, List.mem_cons, exists_eq_or_imp]
    rw [or_assoc, or_comm (a := ∃ l ∈ _, _)]

end Rows

theorem live_layers {ls : List Layer} {s : Sweep} {q : Qubit} :
    (layers ls s).2.live.contains q = true ↔
      s.live.contains q = true ∨ ∃ l ∈ (layers ls s).1, ∃ g ∈ l, g.Touches q :=
  contains_layers fun _ _ => rfl

theorem reached_layers_iff {ls : List Layer} {s : Sweep} {q : Qubit} :
    (layers ls s).2.reached.contains q = true ↔
      s.reached.contains q = true ∨ ∃ l ∈ (layers ls s).1, ∃ g ∈ l, g.Touches q :=
  contains_layers fun _ _ => rfl

theorem layers_append (ls ls' : List Layer) (s : Sweep) :
    layers (ls ++ ls') s =
      ((layers ls (layers ls' s).2).1 ++ (layers ls' s).1, (layers ls (layers ls' s).2).2) := by
  induction ls with
  | nil => rfl
  | cons l ls ih => simp only [List.cons_append, layers, ih]

theorem keeps_iff {g : Gate} {s : Sweep} :
    g.ends.any s.live.contains = true ↔ ∃ q, g.Touches q ∧ s.live.contains q = true :=
  List.any_eq_true

theorem touching_layer {l : Layer} {s : Sweep} {q : Qubit} (hq : s.live.contains q = true) :
    touching q (layer l s).1 = touching q l := by
  induction l generalizing s with
  | nil => rfl
  | cons g gs ih =>
    rw [layer, touching_cons]
    split
    · have hq' : (s.absorb g).live.contains q = true := by
        simp [absorb, LiveSet.contains_foldl_insert, hq]
      rw [touching_cons, ih hq']
    · -- A gate that is left out touches no live qubit.
      rename_i hg
      have htouch : ¬ g.Touches q := fun h => hg (keeps_iff.2 ⟨q, h, hq⟩)
      rw [if_neg htouch, ih hq]

theorem touching_layers {ls : List Layer} {s : Sweep} {q : Qubit}
    (hq : s.live.contains q = true) :
    (layers ls s).1.map (touching q) = ls.map (touching q) := by
  induction ls with
  | nil => rfl
  | cons l ls ih =>
    rw [layers, List.map_cons, List.map_cons, ih, touching_layer (live_layers.2 (.inl hq))]

theorem count_unoriented_touching {u : Gate} {q : Qubit} (hu : u.Touches q) (l : Layer) :
    (Layer.unoriented (touching q l)).count u = l.unoriented.count u := by
  have hfilter : Layer.unoriented (touching q l) =
      l.unoriented.filter fun g => decide (g.Touches q) := by
    rw [Layer.unoriented, Layer.unoriented, List.filter_map]
    simp only [Function.comp_def, Gate.touches_unoriented]
    rfl
  rw [hfilter]
  exact List.count_filter (decide_eq_true hu)

theorem count_unoriented_layer {l : Layer} {s : Sweep} {q : Qubit} {u : Gate}
    (hq : s.live.contains q = true) (hu : u.Touches q) :
    (layer l s).1.unoriented.count u = l.unoriented.count u := by
  rw [← count_unoriented_touching hu, touching_layer hq, count_unoriented_touching hu]

theorem not_touches_of_mem_minus {l : Layer} {s : Sweep} {g : Gate} {q : Qubit}
    (hg : g ∈ Layer.minus l (layer l s).1) (hq : s.live.contains q = true) : ¬ g.Touches q := by
  intro ht
  have hpos : 0 < (Layer.minus l (layer l s).1).unoriented.count g.unoriented :=
    List.count_pos_iff.2 (List.mem_map_of_mem hg)
  rw [Layer.count_unoriented_minus,
    count_unoriented_layer hq (Gate.touches_unoriented.2 ht), Nat.sub_self] at hpos
  exact Nat.lt_irrefl 0 hpos

/-- A gate that is left behind shares no qubit with the gates kept from later layers. -/
theorem inLayerOrder_of_mem_rest {n : Nat} {ls : List Layer} {s : Sweep} {x y : Nat × Gate}
    (hx : x ∈ numbered n (layers ls s).1)
    (hy : y ∈ numbered n (List.zipWith Layer.minus ls (layers ls s).1)) : InLayerOrder x y := by
  induction ls generalizing n with
  | nil => simp [layers] at hx
  | cons l ls ih =>
    simp only [layers, List.zipWith_cons_cons, numbered_cons, List.mem_append, List.mem_map]
      at hx hy
    rcases hx with ⟨g, hg, rfl⟩ | hx
    · apply inLayerOrder_of_le
      rcases hy with ⟨h, _, rfl⟩ | hy
      · exact Nat.le_refl n
      · exact Nat.le_of_succ_le (le_of_mem_numbered hy)
    · rcases hy with ⟨h, hh, rfl⟩ | hy
      · rintro ⟨q, hxq, hhq⟩
        obtain ⟨k, hk, hxk⟩ := mem_layers_of_mem_numbered hx
        have hq : (layers ls s).2.live.contains q = true :=
          live_layers.2 (.inr ⟨k, hk, x.2, hxk, hxq⟩)
        exact absurd hhq (not_touches_of_mem_minus hh hq)
      · exact ih hx hy

theorem numbered_layers_sublist (n : Nat) (ls : List Layer) (s : Sweep) :
    (numbered n (layers ls s).1).Sublist (numbered n ls) := by
  induction ls generalizing n with
  | nil => exact .slnil
  | cons l ls ih => exact ((sublist_layer _ _).map _).append (ih (n + 1))

theorem numbered_rest_sublist (n : Nat) (ls : List Layer) (s : Sweep) :
    (numbered n (List.zipWith Layer.minus ls (layers ls s).1)).Sublist (numbered n ls) := by
  induction ls generalizing n with
  | nil => exact .slnil
  | cons l ls ih => exact ((Layer.minus_sublist _ _).map _).append (ih (n + 1))

theorem perm_numbered_layers_append_rest (n : Nat) (ls : List Layer) (s : Sweep) :
    ((numbered n (layers ls s).1 ++
        numbered n (List.zipWith Layer.minus ls (layers ls s).1)).map unorientedAt).Perm
      ((numbered n ls).map unorientedAt) := by
  induction ls generalizing n with
  | nil => exact .refl _
  | cons l ls ih =>
    have hl := ((Layer.perm_append_minus (sublist_layer l (layers ls s).2)).map (n, ·))
    simp only [layers, List.zipWith_cons_cons, numbered_cons, List.map_append,
      map_unorientedAt_layer] at ih hl ⊢
    refine .trans ?_ (hl.append (ih (n + 1)))
    rw [List.perm_iff_count]
    intro x
    simp only [List.count_append]
    omega

theorem not_touches_of_mem_rest {n : Nat} {ls : List Layer} {s : Sweep} {x : Nat × Gate} {q : Qubit}
    (hx : x ∈ numbered n (List.zipWith Layer.minus ls (layers ls s).1))
    (hq : s.live.contains q = true) : ¬ x.2.Touches q := by
  induction ls generalizing n with
  | nil => simp at hx
  | cons l ls ih =>
    simp only [layers, List.zipWith_cons_cons, numbered_cons, List.mem_append, List.mem_map] at hx
    rcases hx with ⟨g, hg, rfl⟩ | hx
    · exact not_touches_of_mem_minus hg (live_layers.2 (.inl hq))
    · exact ih hx

end Sweep

namespace Circuit

/-- A circuit is cut in two, of which the first can run before the second. -/
structure Splits (c first second : Circuit) : Prop where
  first_sublist : first.layeredGates.Sublist c.layeredGates
  second_sublist : second.layeredGates.Sublist c.layeredGates
  perm : ((first.layeredGates ++ second.layeredGates).map unorientedAt).Perm
    (c.layeredGates.map unorientedAt)
  inLayerOrder : ∀ x ∈ first.layeredGates, ∀ y ∈ second.layeredGates, InLayerOrder x y

theorem subtract_pastCone (c : Circuit) (support : QubitSet) :
    c.subtract (c.pastCone support) =
      .ok ⟨List.zipWith Layer.minus c.layers (c.pastCone support).layers⟩ := by
  rw [subtract, depth_pastCone, if_pos rfl]

theorem splits_pastCone {c rest : Circuit} {support : QubitSet}
    (h : c.subtract (c.pastCone support) = .ok rest) : c.Splits (c.pastCone support) rest := by
  rw [subtract_pastCone, Except.ok.injEq] at h
  subst h
  exact ⟨Sweep.numbered_layers_sublist 0 _ _, Sweep.numbered_rest_sublist 0 _ _,
    Sweep.perm_numbered_layers_append_rest 0 _ _,
    fun x hx y hy => Sweep.inLayerOrder_of_mem_rest hx hy⟩

theorem sublist_gates_pastCone (c : Circuit) (support : QubitSet) :
    (c.pastCone support).gates.Sublist c.gates := by
  have h := (splits_pastCone (subtract_pastCone c support)).first_sublist.map Prod.snd
  rwa [map_snd_layeredGates, map_snd_layeredGates] at h

theorem not_touches_of_mem_subtract {c rest : Circuit} {support : QubitSet} {g : Gate} {q : Qubit}
    (h : c.subtract (c.pastCone support) = .ok rest) (hg : g ∈ rest.gates) (hq : q ∈ support) :
    ¬ g.Touches q := by
  rw [subtract_pastCone, Except.ok.injEq] at h
  subst h
  obtain ⟨i, hi⟩ := mem_gates_iff.1 hg
  exact Sweep.not_touches_of_mem_rest hi (by simp [Sweep.start, hq])

theorem touching_pastCone {c : Circuit} {support : QubitSet} {q : Qubit} (hq : q ∈ support) :
    (c.pastCone support).layers.map (touching q) = c.layers.map (touching q) :=
  Sweep.touching_layers (by simp [Sweep.start, hq])

theorem mem_gates_pastCone {c : Circuit} {support : QubitSet} {g : Gate} {q : Qubit}
    (hg : g ∈ c.gates) (ht : g.Touches q) (hq : q ∈ support) : g ∈ (c.pastCone support).gates := by
  obtain ⟨l, hl, hgl⟩ := List.mem_flatten.1 hg
  have hmem : touching q l ∈ c.layers.map (touching q) := List.mem_map_of_mem hl
  rw [← touching_pastCone hq] at hmem
  obtain ⟨k, hk, hkl⟩ := List.mem_map.1 hmem
  have hgk : g ∈ touching q k := hkl ▸ mem_touching.2 ⟨hgl, ht⟩
  exact List.mem_flatten.2 ⟨k, hk, (mem_touching.1 hgk).1⟩

theorem exists_touches_pastCone {c : Circuit} {support : QubitSet} {g : Gate} {q : Qubit}
    (hg : g ∈ c.gates) (ht : g.Touches q) (hq : q ∈ support) :
    ∃ g' ∈ (c.pastCone support).gates, g'.Touches q :=
  ⟨g, mem_gates_pastCone hg ht hq, ht⟩

theorem ancestorWidth_pos {c : Circuit} {support : QubitSet} {q : Qubit} (hc : q ∈ c.qubits)
    (hq : q ∈ support) : 0 < c.ancestorWidth support := by
  obtain ⟨g, hg, ht⟩ := mem_qubits.1 hc
  obtain ⟨l, hl, hgl⟩ := List.mem_flatten.1 (mem_gates_pastCone hg ht hq)
  exact LiveSet.size_pos (Sweep.reached_layers_iff.2 (.inr ⟨l, hl, g, hgl, ht⟩))

end Circuit

end QubitReuse
