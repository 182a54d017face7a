import QubitReuse.Proofs.Schedule.Gluing
import QubitReuse.Proofs.Traversal

namespace QubitReuse

theorem lookup_cons_eq_none {p q : Qubit} {n : Nat} {l : List (Qubit × Nat)} :
    ((q, n) :: l).lookup p = none ↔ p ≠ q ∧ l.lookup p = none := by
  rw [List.lookup_cons]
  by_cases h : p = q
  · rw [h, beq_self_eq_true]
    exact iff_of_false nofun fun h => h.1 rfl
  · rw [beq_eq_false_iff_ne.2 h]
    exact (and_iff_right h).symm

namespace Schedule

theorem checkReleases_release_iff {position n : Nat} {released : List (Qubit × Nat)} {q : Qubit}
    {steps : List Step} :
    checkReleases position released (.release q :: steps) = .ok n ↔ released.lookup q = none ∧
      checkReleases (position + 1) ((q, position) :: released) steps = .ok n := by
  rw [checkReleases]
  split
  · rename_i h
    exact iff_of_false nofun fun h' => Option.isSome_iff_ne_none.1 h h'.1
  · rename_i h
    exact (and_iff_right (Option.not_isSome_iff_eq_none.1 h)).symm

theorem checkReleases_block_iff {position n : Nat} {released : List (Qubit × Nat)} {l : Layer}
    {steps : List Step} :
    checkReleases position released (.block l :: steps) = .ok n ↔
      (∀ q ∈ Layer.ends l, released.lookup q = none) ∧
      checkReleases (position + 1) released steps = .ok n := by
  have hnone : (Layer.ends l).findSome? (fun q => (released.lookup q).map fun since => (q, since)) =
      none ↔ ∀ q ∈ Layer.ends l, released.lookup q = none := by
    rw [List.findSome?_eq_none_iff]
    exact forall₂_congr fun q _ => Option.map_eq_none_iff
  rw [checkReleases]
  split
  · rename_i h
    refine iff_of_false nofun fun h' => ?_
    rw [hnone.2 h'.1] at h
    cases h
  · rename_i h
    exact (and_iff_right (hnone.1 h)).symm

theorem checkReleases_eq_ok_iff {position n : Nat} {released : List (Qubit × Nat)}
    {steps : List Step} :
    checkReleases position released steps = .ok n ↔
      (∀ b ∈ steps, ∀ q ∈ b.qubits, released.lookup q = none) ∧
      steps.Pairwise (fun a b => ∀ q, a = .release q → q ∉ b.qubits) ∧
      n = released.length + steps.countP (!·.isBlock) := by
  induction steps generalizing position released with
  | nil =>
    rw [checkReleases, Except.ok.injEq]
    simp only [List.not_mem_nil, List.Pairwise.nil, List.countP_nil, Nat.add_zero]
    constructor
    · intro h
      exact ⟨nofun, trivial, h.symm⟩
    · intro h
      exact h.2.2.symm
  | cons st steps ih =>
    rw [List.forall_mem_cons, List.pairwise_cons]
    cases st with
    | release q =>
      have hcount : (Step.release q :: steps).countP (!·.isBlock) =
          steps.countP (!·.isBlock) + 1 := List.countP_cons_of_pos rfl
      rw [checkReleases_release_iff, ih, hcount, List.length_cons]
      constructor
      · intro ⟨hq, hl, hp, hn⟩
        refine ⟨⟨?_, ?_⟩, ⟨?_, hp⟩, by omega⟩
        · intro p hp
          exact List.mem_singleton.1 hp ▸ hq
        · intro b hb p hpb
          exact (lookup_cons_eq_none.1 (hl b hb p hpb)).2
        · intro b hb p hpq hpb
          exact (lookup_cons_eq_none.1 (hl b hb p hpb)).1 (Step.release.inj hpq).symm
      · intro ⟨⟨hq, hl⟩, ⟨hrest, hp⟩, hn⟩
        refine ⟨hq q List.mem_cons_self, ?_, hp, by omega⟩
        intro b hb p hpb
        exact lookup_cons_eq_none.2 ⟨fun h => hrest b hb p (h ▸ rfl) hpb, hl b hb p hpb⟩
    | block l =>
      have hcount : (Step.block l :: steps).countP (!·.isBlock) =
          steps.countP (!·.isBlock) := List.countP_cons_of_neg nofun
      rw [checkReleases_block_iff, ih, hcount]
      constructor
      · intro ⟨hl, hl', hp, hn⟩
        exact ⟨⟨hl, hl'⟩, ⟨fun _ _ _ => nofun, hp⟩, hn⟩
      · intro ⟨⟨hl, hl'⟩, ⟨_, hp⟩, hn⟩
        exact ⟨hl, hl', hp, hn⟩

theorem linearises_of_perm {s : Schedule} {c : Circuit} {order : List (Nat × Gate)}
    (hperm : order.Perm (c.layeredGates.map unorientedAt))
    (hmap : order.map Prod.snd = Layer.unoriented s.gates)
    (hpair : order.Pairwise InLayerOrder) : s.Linearises c := by
  have ⟨order', horder, hperm'⟩ :=
    (congrFun (congrFun (List.eq_map_comp_perm unorientedAt) _) _).mpr hperm
  subst horder
  refine ⟨order', hperm', ?_, (List.pairwise_map.1 hpair).imp inLayerOrder_unorientedAt.1⟩
  rw [List.map_map] at hmap
  exact hmap

theorem Linearises.perm_unoriented_gates {s : Schedule} {c : Circuit} (h : s.Linearises c) :
    (Layer.unoriented s.gates).Perm (Layer.unoriented c.gates) := by
  obtain ⟨order, hperm, hmap, _⟩ := h
  have hgates := hperm.map (·.2.unoriented)
  rw [hmap] at hgates
  rwa [← Circuit.map_snd_layeredGates, Layer.unoriented, Layer.unoriented, List.map_map]

theorem Linearises.mem_ends_gates {s : Schedule} {c : Circuit} (h : s.Linearises c) {q : Qubit} :
    q ∈ Layer.ends s.gates ↔ q ∈ Layer.ends c.gates := by
  rw [← Layer.mem_ends_unoriented, ← Layer.mem_ends_unoriented (l := c.gates), Layer.ends,
    Layer.ends]
  exact (h.perm_unoriented_gates.flatMap_right _).mem_iff

theorem linearises_iff {s : Schedule} {c : Circuit} :
    s.Linearises c ↔ ∀ q,
      InLayers (wireAt q (c.layeredGates.map unorientedAt)) (wire q (Layer.unoriented s.gates)) := by
  constructor
  · intro ⟨order, hperm, hmap, hpair⟩ q
    have h := inLayers_of_order (hperm.map unorientedAt)
      (List.pairwise_map.2 (hpair.imp inLayerOrder_unorientedAt.2)) q
    rw [List.map_map] at h
    rwa [Layer.unoriented, ← hmap]
  · intro h
    obtain ⟨_, hperm, hmap, hpair⟩ := exists_order h
    exact linearises_of_perm hperm hmap hpair

theorem inLayers_wire_iff_of_not_mem {c : Circuit} {q : Qubit} {gs : List Gate}
    (hq : q ∉ c.qubits) :
    InLayers (wireAt q (c.layeredGates.map unorientedAt)) (wire q (Layer.unoriented gs)) ↔
      ¬ ∃ g ∈ gs, g.Touches q := by
  have hnil : wireAt q (c.layeredGates.map unorientedAt) = [] := by
    apply List.eq_nil_iff_forall_not_mem.2
    intro x hx
    have ⟨hx, ht⟩ := mem_wireAt.1 hx
    have ⟨⟨i, g⟩, hy, hxy⟩ := List.mem_map.1 hx
    subst hxy
    exact hq (Circuit.mem_qubits.2 ⟨g, Circuit.mem_gates_iff.2 ⟨i, hy⟩, Gate.touches_unoriented.1 ht⟩)
  rw [hnil, inLayers_nil, ← unoriented_wire, Layer.unoriented_eq_nil_iff,
    List.eq_nil_iff_forall_not_mem]
  constructor
  · rintro h ⟨g, hg, ht⟩
    exact h g (mem_wire.2 ⟨hg, ht⟩)
  · intro h g hg
    exact h ⟨g, mem_wire.1 hg⟩

theorem matchStrands_forM_iff {s : Schedule} {c : Circuit} :
    (c.qubits.toList.forM fun q =>
      (matchStrands (c.strands q) (wire q s.gates)).mapError
        (CompressionError.orderViolation q)) = .ok () ↔
      ∀ q ∈ c.qubits, InLayers (wireAt q (c.layeredGates.map unorientedAt))
        (wire q (Layer.unoriented s.gates)) := by
  rw [forM_eq_ok_iff]
  apply forall₂_congr
  intro q _
  exact mapError_eq_ok_iff.trans Circuit.matchStrands_strands_eq_ok_iff

theorem linearises_iff_of_qubits {s : Schedule} {c : Circuit} :
    s.Linearises c ↔
      (∀ q ∈ c.qubits, InLayers (wireAt q (c.layeredGates.map unorientedAt))
        (wire q (Layer.unoriented s.gates))) ∧
      ∀ q ∈ QubitSet.ofList (s.gates.flatMap Gate.ends), q ∈ c.qubits := by
  rw [linearises_iff]
  constructor
  · intro h
    refine ⟨fun q _ => h q, fun q hq => ?_⟩
    refine Decidable.byContradiction fun hc => ?_
    exact (inLayers_wire_iff_of_not_mem hc).1 (h q) (List.mem_flatMap.1 (QubitSet.mem_ofList.1 hq))
  · intro ⟨h, hsub⟩ q
    by_cases hc : q ∈ c.qubits
    · exact h q hc
    · refine (inLayers_wire_iff_of_not_mem hc).2 fun hq => ?_
      exact hc (hsub q (QubitSet.mem_ofList.2 (List.mem_flatMap.2 hq)))

theorem checkOrder_eq_ok_iff {s : Schedule} {c : Circuit} {r : OrderReport} :
    s.checkOrder c = .ok r ↔ s.Linearises c ∧ s.RestsAfterRelease ∧
      r = ⟨true, c.qubits.size, c.numGates, s.numReleases⟩ := by
  rw [checkOrder, bind_eq_ok_iff, linearises_iff_of_qubits]
  constructor
  · intro ⟨_, hwires, h⟩
    dsimp only at h
    split at h
    · cases h
    · rename_i hforeign
      have ⟨n, hn, hr⟩ := bind_eq_ok_iff.1 h
      have ⟨_, hrest, hlen⟩ := checkReleases_eq_ok_iff.1 hn
      refine ⟨⟨matchStrands_forM_iff.1 hwires, ?_⟩, hrest, ?_⟩
      · intro q hq
        simpa using List.find?_eq_none.1 hforeign q hq
      · rw [List.length_nil, Nat.zero_add] at hlen
        rw [← Except.ok.inj hr, hlen]
        rfl
  · intro ⟨⟨hwires, hsub⟩, hrest, hr⟩
    refine ⟨(), matchStrands_forM_iff.2 hwires, ?_⟩
    have hforeign : (QubitSet.ofList (s.gates.flatMap Gate.ends)).toList.find?
        (fun q => decide (q ∉ c.qubits)) = none :=
      List.find?_eq_none.2 fun q hq => by simpa using hsub q hq
    have hreleases : checkReleases 0 [] s.steps = .ok s.numReleases :=
      checkReleases_eq_ok_iff.2 ⟨fun _ _ _ _ => rfl, hrest, (Nat.zero_add _).symm⟩
    simp only [hforeign, hreleases, hr]
    rfl

end Schedule

end QubitReuse
