import QubitReuse.Proofs.Schedule.Freezing
import QubitReuse.Proofs.Slot.Shape

namespace QubitReuse

theorem Gate.isRelease_unoriented (g : Gate) : g.unoriented.isRelease = g.isRelease := by
  cases g with
  | pair a b =>
    rw [unoriented]
    split
    · rfl
    · rfl
  | release q => rfl

theorem Gate.isPair_unoriented (g : Gate) : g.unoriented.isPair = g.isPair :=
  congrArg not g.isRelease_unoriented

theorem Layer.countP_unoriented {p : Gate → Bool} (hp : ∀ g, p g.unoriented = p g) (l : Layer) :
    l.unoriented.countP p = l.countP p := by
  rw [unoriented, List.countP_map]
  exact congrFun (congrArg List.countP (funext hp)) l

namespace Schedule

variable {s : Schedule} {c : Circuit}

theorem Linearises.countP_gates (h : s.Linearises c) {p : Gate → Bool}
    (hp : ∀ g, p g.unoriented = p g) : s.gates.countP p = c.gates.countP p := by
  rw [← Layer.countP_unoriented hp, ← Layer.countP_unoriented hp c.gates,
    h.perm_unoriented_gates.countP_eq]

theorem Linearises.length_gates (h : s.Linearises c) : s.gates.length = c.numGates := by
  have hlen := h.perm_unoriented_gates.length_eq
  rwa [Layer.length_unoriented, Layer.length_unoriented] at hlen

theorem total_countP {p : Gate → Bool} {n : Nat} (hn : ∀ q, [Gate.release q].countP p = n)
    (s : Schedule) : s.total (·.countP p) = s.gates.countP p + n * s.numReleases := by
  cases s with
  | mk steps =>
  simp only [total, layers, gates, numReleases]
  induction steps with
  | nil => rfl
  | cons st steps ih =>
    rw [List.flatMap_cons, List.map_append, List.sum_append, ih, List.flatMap_cons,
      List.countP_append]
    cases st with
    | block l =>
      have hlayers : ((Step.block l).layers.map (·.countP p)).sum = l.countP p := by
        cases l with
        | nil => rfl
        | cons g l => exact List.sum_singleton
      rw [hlayers, List.countP_cons_of_neg (by simp [Step.isBlock]), Step.gates, Nat.add_assoc]
    | release q =>
      rw [List.countP_cons_of_pos (by simp [Step.isBlock]), Step.layers, List.map_singleton,
        List.sum_singleton, hn, Step.gates, List.countP_nil, Nat.mul_succ]
      omega

section Blocks

variable (hblocks : ∀ l, .block l ∈ s.steps → l ≠ [])

include hblocks

theorem total_one : s.total (fun _ => 1) = s.numBlocks + s.numReleases := by
  cases s with
  | mk steps =>
  simp only [total, layers, numBlocks, numReleases]
  induction steps with
  | nil => rfl
  | cons st steps ih =>
    have hsum := ih fun l hl => hblocks l (List.mem_cons_of_mem st hl)
    rw [List.flatMap_cons, List.map_append, List.sum_append, hsum]
    cases st with
    | block l =>
      rw [List.countP_cons_of_pos rfl, List.countP_cons_of_neg (by simp [Step.isBlock])]
      cases l with
      | nil => exact absurd rfl (hblocks [] List.mem_cons_self)
      | cons g l =>
        rw [Step.layers, List.map_singleton, List.sum_singleton, Nat.add_right_comm, Nat.add_comm 1]
        exact nofun
    | release q =>
      rw [List.countP_cons_of_neg (by simp [Step.isBlock]), List.countP_cons_of_pos rfl,
        Step.layers, List.map_singleton, List.sum_singleton, Nat.add_comm 1, Nat.add_assoc]

theorem numBlocks_le_length_gates : s.numBlocks ≤ s.gates.length := by
  cases s with
  | mk steps =>
  simp only [numBlocks, gates]
  induction steps with
  | nil => exact Nat.le_refl 0
  | cons st steps ih =>
    have hle := ih fun l hl => hblocks l (List.mem_cons_of_mem st hl)
    rw [List.flatMap_cons, List.length_append]
    cases st with
    | block l =>
      have hpos := List.length_pos_of_ne_nil (hblocks l List.mem_cons_self)
      rw [List.countP_cons_of_pos rfl, Step.gates, Nat.add_comm l.length]
      exact Nat.add_le_add hle hpos
    | release q =>
      rw [List.countP_cons_of_neg (by simp [Step.isBlock])]
      exact Nat.le_trans hle (Nat.le_add_left _ _)

end Blocks

theorem length_le_peakLive {qs : List Qubit} (hqs : qs.Nodup)
    (hlive : ∀ q ∈ qs, isLive s.steps q = true) : qs.length ≤ s.peakLive := by
  have hsub : qs ⊆ liveQubits s.steps := fun q hq => mem_liveQubits.2 (hlive q hq)
  exact Nat.le_trans (hqs.length_le_of_subset hsub)
    (length_liveQubits_le_peakLive (List.prefix_refl _))

theorem peakLive_le_size (s : Schedule) : s.peakLive ≤ s.qubits.size := by
  have ⟨k, hk⟩ := s.exists_peakLive
  exact hk ▸ length_liveQubits_le s k

theorem numReleasesIn_le (s : Schedule) (qs : QubitSet) : s.numReleasesIn qs ≤ s.numReleases := by
  apply List.countP_mono_left
  intro st _ hst
  cases st with
  | block l => cases hst
  | release q => rfl

end Schedule

namespace Retirement

theorem countP_isBlock_steps (frozen : QubitSet) (r : Retirement) :
    (r.steps frozen).countP Step.isBlock = r.cone.activeDepth := by
  have hrelease : (if r.qubit ∈ frozen then [] else [Step.release r.qubit]).countP Step.isBlock =
      0 := by
    split
    · rfl
    · rfl
  rw [steps, List.countP_append, hrelease, Nat.add_zero, List.countP_map, Circuit.activeDepth,
    List.countP_eq_length_filter (l := r.cone.layers)]
  exact List.countP_eq_length.2 fun _ _ => rfl

theorem countP_not_isBlock_steps_le (frozen : QubitSet) (r : Retirement) :
    (r.steps frozen).countP (!·.isBlock) ≤ 1 := by
  have hblocks : ((r.cone.layers.filter (!·.isEmpty)).map Step.block).countP (!·.isBlock) = 0 := by
    rw [List.countP_map]
    exact List.countP_eq_zero.2 fun _ _ => nofun
  rw [steps, List.countP_append, hblocks, Nat.zero_add]
  split
  · exact Nat.zero_le 1
  · exact Nat.le_refl 1

end Retirement

theorem Layer.countP_isEmpty_le {l k : Layer} (h : k.Sublist l) :
    [l].countP (!·.isEmpty) ≤ [k].countP (!·.isEmpty) + [minus l k].countP (!·.isEmpty) := by
  have hlen := (perm_append_minus h).length_eq
  rw [List.length_append, length_unoriented, length_unoriented, length_unoriented] at hlen
  simp only [List.countP_singleton, Bool.not_eq_true', List.isEmpty_eq_false_iff,
    ← List.length_pos_iff]
  split <;> split <;> split <;> omega

theorem Sweep.countP_layers_le (ls : List Layer) (s : Sweep) :
    ls.countP (!·.isEmpty) ≤ (layers ls s).1.countP (!·.isEmpty) +
      (List.zipWith Layer.minus ls (layers ls s).1).countP (!·.isEmpty) := by
  induction ls with
  | nil => exact Nat.le_refl 0
  | cons l ls ih =>
    have hhead := Layer.countP_isEmpty_le (sublist_layer l (layers ls s).2)
    simp only [layers, List.zipWith_cons_cons, List.countP_cons, List.countP_nil] at hhead ih ⊢
    omega

namespace Circuit

theorem activeDepth_le_of_subtract {c rest : Circuit} {support : QubitSet}
    (h : c.subtract (c.pastCone support) = .ok rest) :
    c.activeDepth ≤ (c.pastCone support).activeDepth + rest.activeDepth := by
  rw [subtract_pastCone, Except.ok.injEq] at h
  subst h
  exact Sweep.countP_layers_le c.layers _

namespace Exhausts

variable {c : Circuit} {rs : List Retirement}

theorem activeDepth_le_numBlocks (h : c.Exhausts rs) (frozen : QubitSet) :
    c.activeDepth ≤ Schedule.numBlocks ⟨rs.flatMap (·.steps frozen)⟩ := by
  induction h with
  | @idle c hc =>
    have hempty : ∀ l ∈ c.layers, l = [] := by
      intro l hl
      exact List.flatten_eq_nil_iff.1 hc l hl
    rw [activeDepth, List.countP_eq_zero.2 fun l hl => by simp [hempty l hl]]
    exact Nat.zero_le _
  | @retire c rest q rs _ hs _ ih =>
    rw [Schedule.numBlocks, List.flatMap_cons, List.countP_append, Retirement.countP_isBlock_steps]
    exact Nat.le_trans (activeDepth_le_of_subtract hs) (Nat.add_le_add_left ih _)

theorem numReleases_le (h : c.Exhausts rs) (frozen : QubitSet) :
    Schedule.numReleases ⟨rs.flatMap (·.steps frozen)⟩ ≤ c.qubits.size := by
  refine Nat.le_trans ?_ h.length_le
  rw [Schedule.numReleases, List.countP_flatMap]
  -- A round gives one release at most; why it comes to an end does not matter any more.
  clear h
  induction rs with
  | nil => exact Nat.le_refl 0
  | cons r rs ih =>
    rw [List.map_cons, List.sum_cons, List.length_cons, Nat.add_comm]
    exact Nat.add_le_add ih (r.countP_not_isBlock_steps_le frozen)

end Exhausts

end Circuit

end QubitReuse
