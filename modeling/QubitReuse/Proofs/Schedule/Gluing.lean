import QubitReuse.Proofs.Schedule.Wire

/-!
From an order on each qubit to one order of all gates. The first scheduled gate is taken from the
least layer that has gates on its qubits; on a pair both qubits name the same layer, since the gate
is found on both. Without it the circuit and the schedule still agree on every qubit.
-/

namespace QubitReuse

section Head

variable {xs : List (Nat × Gate)} {g : Gate} {gs : List Gate}

theorem exists_least_of_touches {q : Qubit} (h : InLayers (wireAt q xs) (wire q (g :: gs)))
    (hq : g.Touches q) : ∃ i, (i, g) ∈ xs ∧ ∀ x ∈ xs, x.2.Touches q → i ≤ x.1 := by
  have ⟨w, hw, hmap, hsorted⟩ := h
  have ⟨k, hk⟩ := Nat.exists_eq_add_of_lt (List.count_pos_iff.2 hq)
  rw [wire_cons, hk, List.replicate_succ, List.cons_append] at hmap
  cases w with
  | nil => cases hmap
  | cons x w =>
    have ⟨hx, _⟩ := List.cons.inj hmap
    have hxs := (mem_wireAt.1 (hw.mem_iff.1 List.mem_cons_self)).1
    refine ⟨x.1, hx ▸ hxs, ?_⟩
    intro y hy hyq
    cases List.mem_cons.1 (hw.mem_iff.2 (mem_wireAt.2 ⟨hy, hyq⟩)) with
    | inl hyx => exact Nat.le_of_eq (congrArg Prod.fst hyx).symm
    | inr hyw => exact (List.pairwise_cons.1 hsorted).1 y hyw

theorem exists_least (h : ∀ q, InLayers (wireAt q xs) (wire q (g :: gs))) :
    ∃ i, (i, g) ∈ xs ∧ ∀ x ∈ xs, InLayerOrder (i, g) x := by
  have ⟨p, hp⟩ := g.exists_touches
  have ⟨i, hi, hleast⟩ := exists_least_of_touches (h p) hp
  refine ⟨i, hi, ?_⟩
  intro x hx ⟨q, hgq, hxq⟩
  have ⟨j, hj, hleast'⟩ := exists_least_of_touches (h q) hgq
  exact Nat.le_trans (hleast (j, g) hj hp) (hleast' x hx hxq)

theorem take_eq_replicate {w : List (Nat × Gate)} {k i : Nat} {us : List Gate}
    (hsorted : w.Pairwise (·.1 ≤ ·.1)) (hleast : ∀ x ∈ w, i ≤ x.1)
    (hmap : w.map Prod.snd = List.replicate k g ++ us) (hcount : k ≤ w.count (i, g)) :
    w.take k = List.replicate k (i, g) := by
  have hsplit := eq_filter_append_filter hsorted hleast
  have hlen : k ≤ (w.filter (·.1 = i)).length := by
    have hfilter : (w.filter (·.1 = i)).count (i, g) = w.count (i, g) :=
      List.count_filter (by simp)
    rw [← hfilter] at hcount
    exact Nat.le_trans hcount List.count_le_length
  have htake : w.take k = (w.filter (·.1 = i)).take k := by
    conv_lhs => rw [hsplit]
    exact List.take_append_of_le_length hlen
  have hsnd : (w.take k).map Prod.snd = List.replicate k g := by
    rw [List.map_take, hmap, List.take_left' List.length_replicate]
  apply List.eq_replicate_iff.2
  constructor
  · rw [← List.length_map Prod.snd, hsnd, List.length_replicate]
  · intro x hx
    have hfst : x.1 = i := by
      have hmem := List.mem_of_mem_take (htake ▸ hx)
      simpa using (List.mem_filter.1 hmem).2
    have hg : x.2 = g := List.eq_of_mem_replicate (hsnd ▸ List.mem_map_of_mem hx)
    exact Prod.ext hfst hg

theorem inLayers_erase {i : Nat} (hi : (i, g) ∈ xs) (hleast : ∀ x ∈ xs, InLayerOrder (i, g) x)
    {q : Qubit} (h : InLayers (wireAt q xs) (wire q (g :: gs))) :
    InLayers (wireAt q (xs.erase (i, g))) (wire q gs) := by
  have ⟨w, hw, hmap, hsorted⟩ := h
  rw [wire_cons] at hmap
  have hperm : w.Perm (.replicate (g.ends.count q) (i, g) ++ wireAt q (xs.erase (i, g))) :=
    hw.trans ((List.perm_cons_erase hi).flatMap_right _)
  have htake : w.take (g.ends.count q) = .replicate (g.ends.count q) (i, g) := by
    by_cases hq : g.Touches q
    · apply take_eq_replicate hsorted _ hmap
      · rw [hperm.count_eq, List.count_append, List.count_replicate_self]
        exact Nat.le_add_right _ _
      · intro x hx
        have ⟨hx, hxq⟩ := mem_wireAt.1 (hw.mem_iff.1 hx)
        exact hleast x hx ⟨q, hq, hxq⟩
    · rw [List.count_eq_zero.2 hq]
      rfl
  refine ⟨w.drop (g.ends.count q), ?_, ?_, hsorted.drop⟩
  · rw [← List.take_append_drop (g.ends.count q) w, htake] at hperm
    exact (List.perm_append_left_iff _).1 hperm
  · rw [List.map_drop, hmap, List.drop_left' List.length_replicate]

end Head

theorem exists_order {xs : List (Nat × Gate)} {gs : List Gate}
    (h : ∀ q, InLayers (wireAt q xs) (wire q gs)) :
    ∃ order, List.Perm order xs ∧ order.map Prod.snd = gs ∧ order.Pairwise InLayerOrder := by
  induction gs generalizing xs with
  | nil =>
    refine ⟨[], ?_, rfl, .nil⟩
    apply List.Perm.of_eq
    apply Eq.symm
    apply List.eq_nil_iff_forall_not_mem.2
    intro x hx
    have ⟨q, hq⟩ := x.2.exists_touches
    have ⟨w, hw, hmap, _⟩ := h q
    have hxw : x ∈ w := hw.mem_iff.2 (mem_wireAt.2 ⟨hx, hq⟩)
    rw [List.map_eq_nil_iff.1 hmap] at hxw
    cases hxw
  | cons g gs ih =>
    have ⟨i, hi, hleast⟩ := exists_least h
    have ⟨order, hperm, hmap, hpair⟩ := ih fun q => inLayers_erase hi hleast (h q)
    have hperm' : ((i, g) :: order).Perm xs :=
      (hperm.cons (i, g)).trans (List.perm_cons_erase hi).symm
    refine ⟨(i, g) :: order, hperm', by rw [List.map_cons, hmap], ?_⟩
    apply List.pairwise_cons.2
    exact ⟨fun x hx => hleast x (hperm'.mem_iff.1 (List.mem_cons_of_mem _ hx)), hpair⟩

theorem inLayers_of_order {order xs : List (Nat × Gate)} (hperm : order.Perm xs)
    (hpair : order.Pairwise InLayerOrder) (q : Qubit) :
    InLayers (wireAt q xs) (wire q (order.map Prod.snd)) := by
  refine ⟨wireAt q order, hperm.flatMap_right _, map_snd_wireAt q order, ?_⟩
  apply List.pairwise_flatMap.2
  constructor
  · intro x _
    exact List.pairwise_replicate.2 (.inr (Nat.le_refl _))
  · apply hpair.imp
    intro x y hxy a ha b hb
    have ⟨hxq, hax⟩ := List.mem_replicate.1 ha
    have ⟨hyq, hby⟩ := List.mem_replicate.1 hb
    rw [hax, hby]
    exact hxy ⟨q, List.count_pos_iff.1 (Nat.pos_of_ne_zero hxq),
      List.count_pos_iff.1 (Nat.pos_of_ne_zero hyq)⟩

end QubitReuse
