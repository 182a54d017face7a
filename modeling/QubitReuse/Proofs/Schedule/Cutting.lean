import QubitReuse.Proofs.Schedule.Wire
import QubitReuse.Schedule.Culprit

/-!
Cutting the gates on a qubit into layers. The check cuts off as many gates as the next layer has;
this succeeds whenever any cut does. It meets a loop twice in a row, but no layer ends between the
two.
-/

namespace QubitReuse

section

variable {α : Type} {xs l : List α} {ls : List (List α)}

theorem cutsInto_nil_iff : CutsInto xs [] ↔ xs = [] := by
  constructor
  · rintro ⟨groups, rfl, h⟩
    rw [List.forall₂_nil_right_iff.1 h]
    rfl
  · rintro rfl
    exact ⟨[], rfl, .nil⟩

theorem cutsInto_cons_iff :
    CutsInto xs (l :: ls) ↔ (xs.take l.length).Perm l ∧ CutsInto (xs.drop l.length) ls := by
  constructor
  · rintro ⟨_, rfl, h⟩
    obtain ⟨k, groups, hk, hgroups, rfl⟩ := List.forall₂_cons_right_iff.1 h
    rw [List.flatten_cons, List.take_left' hk.length_eq, List.drop_left' hk.length_eq]
    exact ⟨hk, groups, rfl, hgroups⟩
  · rintro ⟨hl, groups, hgroups, h⟩
    exact ⟨xs.take l.length :: groups, by simp [hgroups], .cons hl h⟩

end

namespace Schedule

theorem matchStrands_eq_ok_iff_cutsInto {ss : List Strand} {gs : List Gate} :
    matchStrands ss gs = .ok () ↔
      CutsInto (Layer.unoriented gs) (ss.map fun s => Layer.unoriented s.gates) := by
  induction ss generalizing gs with
  | nil => rw [matchStrands_nil_iff, List.map_nil, cutsInto_nil_iff, Layer.unoriented_eq_nil_iff]
  | cons s ss ih =>
    rw [matchStrands_cons_eq_ok_iff, List.map_cons, cutsInto_cons_iff, Layer.length_unoriented,
      ← Layer.unoriented_take, ← Layer.unoriented_drop, ← ih]

end Schedule

section

variable {q : Qubit} {gs k rest : List Gate} {ls : List Layer}

theorem count_wire (q : Qubit) (gs : List Gate) (g : Gate) :
    (wire q gs).count g = gs.count g * g.ends.count q := by
  induction gs with
  | nil => simp [wire]
  | cons h gs ih =>
    rw [wire_cons, List.count_append, ih, List.count_cons, List.count_replicate]
    by_cases hg : h = g
    · simp [hg, Nat.add_mul, Nat.add_comm]
    · simp [hg]

theorem wire_append (q : Qubit) (gs hs : List Gate) :
    wire q (gs ++ hs) = wire q gs ++ wire q hs := List.flatMap_append

theorem wire_flatten (q : Qubit) (ls : List Layer) :
    wire q ls.flatten = (ls.map (wire q)).flatten := by
  induction ls with
  | nil => rfl
  | cons l ls ih => rw [List.flatten_cons, wire_append, ih, List.map_cons, List.flatten_cons]

theorem eq_nil_or_of_replicate_eq_append {n : Nat} {g : Gate} (h : .replicate n g = k ++ rest)
    (hk : n ∣ k.count g) :
    k = [] ∧ rest = .replicate n g ∨ k = .replicate n g ∧ rest = [] := by
  obtain ⟨hlen, hcopies, hrest⟩ := List.replicate_eq_append_iff.1 h
  rw [hcopies, List.count_replicate_self] at hk
  rcases Nat.eq_zero_or_pos k.length with hzero | hpos
  · cases List.eq_nil_of_length_eq_zero hzero
    exact .inl ⟨rfl, h.symm⟩
  · have hall := Nat.le_of_dvd hpos hk
    have hnil : rest = [] := List.eq_nil_of_length_eq_zero (by omega)
    rw [hnil, List.append_nil] at h
    exact .inr ⟨h.symm, hnil⟩

theorem exists_wire_of_append_eq (h : k ++ rest = wire q gs)
    (hk : ∀ g : Gate, g.ends.count q ∣ k.count g) :
    ∃ gs₁ gs₂, gs = gs₁ ++ gs₂ ∧ k = wire q gs₁ ∧ rest = wire q gs₂ := by
  induction gs generalizing k with
  | nil =>
    obtain ⟨rfl, rfl⟩ := List.append_eq_nil_iff.1 h
    exact ⟨[], [], rfl, rfl, rfl⟩
  | cons g gs ih =>
    rw [wire_cons] at h
    rcases List.append_eq_append_iff.1 h with ⟨as, hcopies, rfl⟩ | ⟨bs, rfl, hrest⟩
    · rcases eq_nil_or_of_replicate_eq_append hcopies (hk g) with ⟨rfl, rfl⟩ | ⟨rfl, rfl⟩
      · exact ⟨[], g :: gs, rfl, rfl, rfl⟩
      · exact ⟨[g], gs, rfl, (List.append_nil _).symm, rfl⟩
    · have hbs : ∀ f : Gate, f.ends.count q ∣ bs.count f := by
        intro f
        have hf := hk f
        rw [List.count_append, List.count_replicate] at hf
        split at hf
        · rename_i hgf
          rw [beq_iff_eq.1 hgf] at hf
          exact (Nat.dvd_add_right (Nat.dvd_refl _)).1 hf
        · rwa [Nat.zero_add] at hf
      obtain ⟨gs₁, gs₂, rfl, rfl, hgs₂⟩ := ih hrest.symm hbs
      exact ⟨g :: gs₁, gs₂, rfl, rfl, hgs₂⟩

theorem perm_of_perm_wire {gs hs : List Gate} (h : (wire q gs).Perm (wire q hs))
    (hgs : ∀ g ∈ gs, g.Touches q) (hhs : ∀ g ∈ hs, g.Touches q) : gs.Perm hs := by
  apply List.perm_iff_count.2
  intro g
  by_cases hg : g.Touches q
  · have hcount := h.count_eq g
    rw [count_wire, count_wire] at hcount
    exact Nat.eq_of_mul_eq_mul_right (List.count_pos_iff.2 hg) hcount
  · rw [List.count_eq_zero.2 fun h => hg (hgs g h), List.count_eq_zero.2 fun h => hg (hhs g h)]

theorem cutsInto_wire_iff (hgs : ∀ g ∈ gs, g.Touches q) (hls : ∀ l ∈ ls, ∀ g ∈ l, g.Touches q) :
    CutsInto (wire q gs) (ls.map (wire q)) ↔ CutsInto gs ls := by
  constructor
  · intro h
    induction ls generalizing gs with
    | nil =>
      rw [List.map_nil, cutsInto_nil_iff] at h
      refine cutsInto_nil_iff.2 (List.eq_nil_iff_forall_not_mem.2 fun g hg => ?_)
      have hmem := mem_wire.2 ⟨hg, hgs g hg⟩
      rw [h] at hmem
      cases hmem
    | cons l ls ih =>
      obtain ⟨hl, hls⟩ := List.forall_mem_cons.1 hls
      obtain ⟨_, hgroups, h⟩ := h
      obtain ⟨k, groups, hk, hall, rfl⟩ := List.forall₂_cons_right_iff.1 h
      have hdvd : ∀ g : Gate, g.ends.count q ∣ k.count g := by
        intro g
        rw [hk.count_eq, count_wire]
        exact Nat.dvd_mul_left _ _
      obtain ⟨gs₁, gs₂, rfl, rfl, hrest⟩ := exists_wire_of_append_eq hgroups hdvd
      obtain ⟨hgs₁, hgs₂⟩ := List.forall_mem_append.1 hgs
      obtain ⟨groups', rfl, hall'⟩ := ih hgs₂ hls ⟨groups, hrest, hall⟩
      exact ⟨gs₁ :: groups', rfl, .cons (perm_of_perm_wire hk hgs₁ hl) hall'⟩
  · rintro ⟨groups, rfl, h⟩
    exact ⟨groups.map (wire q), (wire_flatten q groups).symm,
      List.rel_map (fun _ _ hk => hk.flatMap_right _) h⟩

theorem wire_touching (q : Qubit) (gs : List Gate) : wire q (touching q gs) = wire q gs := by
  induction gs with
  | nil => rfl
  | cons g gs ih =>
    rw [touching] at ih
    by_cases hg : g.Touches q
    · simp [touching, hg, ih]
    · simp [touching, hg, ih, List.count_eq_zero.2 hg]

theorem isEmpty_wire (q : Qubit) (gs : List Gate) :
    (wire q gs).isEmpty = (touching q gs).isEmpty := by
  rw [Bool.eq_iff_iff, List.isEmpty_iff, List.isEmpty_iff, List.eq_nil_iff_forall_not_mem,
    List.eq_nil_iff_forall_not_mem]
  simp [mem_wire, touching]

theorem touches_of_mem_touching {g : Gate} (h : g ∈ Layer.unoriented (touching q gs)) :
    g.Touches q := by
  obtain ⟨g, hg, rfl⟩ := List.mem_map.1 h
  exact Gate.touches_unoriented.2 (of_decide_eq_true (List.mem_filter.1 hg).2)

end

theorem Circuit.map_gates_strands (c : Circuit) (q : Qubit) :
    (c.strands q).map (·.gates) = (c.layersTouching q).map (wire q) := by
  calc
    (c.strands q).map (·.gates)
        = ((c.layers.zipIdx.map Prod.fst).filter fun l => !(wire q l).isEmpty).map (wire q) := by
      simp only [strands, List.filter_map, List.map_map]
      rfl
    _ = (c.layersTouching q).map (wire q) := by
      simp only [List.zipIdx_map_fst, layersTouching, List.filter_map, List.map_map,
        Function.comp_def, isEmpty_wire, wire_touching]

theorem Schedule.matchStrands_eq_ok_iff_followsOn {s : Schedule} {c : Circuit} {q : Qubit} :
    matchStrands (c.strands q) (wire q s.gates) = .ok () ↔ s.FollowsOn c q := by
  have hlayers : ((c.strands q).map fun strand => Layer.unoriented strand.gates) =
      ((c.layersTouching q).map Layer.unoriented).map (wire q) := by
    have hgates := congrArg (List.map Layer.unoriented) (c.map_gates_strands q)
    rw [List.map_map, List.map_map] at hgates
    rw [List.map_map]
    simpa only [Function.comp_def, unoriented_wire] using hgates
  rw [matchStrands_eq_ok_iff_cutsInto, hlayers, ← wire_touching, unoriented_wire]
  apply cutsInto_wire_iff
  · intro g
    exact touches_of_mem_touching
  · intro l hl g hg
    obtain ⟨_, hk, rfl⟩ := List.mem_map.1 hl
    obtain ⟨k, -, rfl⟩ := List.mem_map.1 (List.mem_filter.1 hk).1
    exact touches_of_mem_touching hg

end QubitReuse
