import Mathlib.Data.List.Perm.Basic
import QubitReuse.Proofs.Schedule.Rearrangement

namespace QubitReuse

theorem count_eq_count_unorientedAt {xs : List (Nat × Gate)} {y : Nat × Gate}
    (h : ∀ x ∈ xs, unorientedAt x = unorientedAt y → x = y) :
    xs.count y = (xs.map unorientedAt).count (unorientedAt y) := by
  rw [List.count, List.count, List.countP_map]
  apply List.countP_congr
  intro x hx
  simp only [Function.comp_apply, beq_iff_eq]
  exact ⟨congrArg unorientedAt, h x hx⟩

theorem count_map_snd (g : Gate) (xs : List (Nat × Gate)) :
    (xs.map Prod.snd).count g = (xs.filter (·.2 = g)).length := by
  rw [List.count, List.countP_map, List.countP_eq_length_filter]
  rfl

namespace Circuit

variable {c : Circuit} {rs : List Retirement} {frozen : QubitSet}

theorem mem_layeredGates {i : Nat} {g : Gate} :
    (i, g) ∈ c.layeredGates ↔ ∃ l, c.layers[i]? = some l ∧ g ∈ l := by
  rw [layeredGates, List.mem_flatMap]
  constructor
  · rintro ⟨⟨l, j⟩, hl, hg⟩
    obtain ⟨g', hg', heq⟩ := List.mem_map.1 hg
    cases heq
    exact ⟨l, List.mem_zipIdx_iff_getElem?.1 hl, hg'⟩
  · rintro ⟨l, hl, hg⟩
    exact ⟨(l, i), List.mem_zipIdx_iff_getElem?.2 hl, List.mem_map_of_mem hg⟩

/-- The layers that hold the gate hold it in one orientation. -/
def KeepsOriented (c : Circuit) (g : Gate) : Prop :=
  ∀ l ∈ c.layers, g ∈ l → ∀ h ∈ l, h.Alike g → h = g

namespace Exhausts

theorem count_retiredGates (h : c.Exhausts rs) {g : Gate} (hg : c.KeepsOriented g) (i : Nat) :
    (retiredGates rs).count (i, g) = c.layeredGates.count (i, g) := by
  by_cases hmem : (i, g) ∈ c.layeredGates
  · obtain ⟨l, hl, hgl⟩ := mem_layeredGates.1 hmem
    have halike : ∀ x ∈ c.layeredGates, unorientedAt x = unorientedAt (i, g) → x = (i, g) := by
      rintro ⟨j, k⟩ hk heq
      obtain ⟨rfl, halike⟩ := Prod.mk.inj heq
      obtain ⟨l', hl', hkl⟩ := mem_layeredGates.1 hk
      cases hl.symm.trans hl'
      rw [hg l (List.mem_of_getElem? hl) hgl k hkl halike]
    rw [count_eq_count_unorientedAt halike,
      count_eq_count_unorientedAt fun x hx => halike x (h.subset hx), h.perm.count_eq]
  · rw [List.count_eq_zero.2 hmem, List.count_eq_zero.2 fun hr => hmem (h.subset hr)]

theorem count_gates (h : c.Exhausts rs) {g : Gate} (hg : c.KeepsOriented g) :
    (Schedule.gates ⟨rs.flatMap (·.steps frozen)⟩).count g = c.gates.count g := by
  have hcopies : ((retiredGates rs).filter (·.2 = g)).Perm (c.layeredGates.filter (·.2 = g)) := by
    rw [List.perm_iff_count]
    rintro ⟨i, g'⟩
    by_cases hg' : g' = g
    · rw [List.count_filter (by simpa using hg'), List.count_filter (by simpa using hg'), hg']
      exact h.count_retiredGates hg i
    · have hnot : ∀ xs : List (Nat × Gate), (i, g') ∉ xs.filter (·.2 = g) :=
        fun xs hx => hg' (of_decide_eq_true (List.mem_filter.1 hx).2)
      rw [List.count_eq_zero.2 (hnot _), List.count_eq_zero.2 (hnot _)]
  rw [gates_eq, ← map_snd_layeredGates, count_map_snd, count_map_snd, hcopies.length_eq]

theorem perm_unoriented_gates (h : c.Exhausts rs) :
    (Layer.unoriented (Schedule.gates ⟨rs.flatMap (·.steps frozen)⟩)).Perm
      (Layer.unoriented c.gates) :=
  h.linearises.perm_unoriented_gates

end Exhausts

theorem keepsOriented_release (c : Circuit) (q : Qubit) : c.KeepsOriented (.release q) := by
  intro l _ _ h _ halike
  cases h with
  | pair a b =>
    rw [Gate.Alike, Gate.unoriented] at halike
    split at halike
    · cases halike
    · cases halike
  | release r => exact halike

theorem rearrange_keeps_oriented (c : Circuit) (frozen : QubitSet) (t : TieBreak) :
    ∃ s, c.rearrange frozen t = .ok s ∧
      (Layer.unoriented s.gates).Perm (Layer.unoriented c.gates) ∧
      (∀ q, s.gates.count (.release q) = c.gates.count (.release q)) ∧
      ∀ g, c.KeepsOriented g → s.gates.count g = c.gates.count g := by
  have ⟨rs, _, hex, hs⟩ := c.exists_rearrange frozen t
  exact ⟨_, hs, hex.perm_unoriented_gates, fun q => hex.count_gates (c.keepsOriented_release q),
    fun g hg => hex.count_gates hg⟩

theorem rearrange_keeps_oriented_repeated :
    KeepsOriented ⟨[[.pair ⟨1⟩ ⟨2⟩, .pair ⟨0⟩ ⟨1⟩, .pair ⟨1⟩ ⟨2⟩]]⟩ (.pair ⟨1⟩ ⟨2⟩) ∧
    ∃ s, rearrange ⟨[[.pair ⟨1⟩ ⟨2⟩, .pair ⟨0⟩ ⟨1⟩, .pair ⟨1⟩ ⟨2⟩]]⟩ .empty .lowestId = .ok s ∧
      s.gates.count (.pair ⟨1⟩ ⟨2⟩) = 2 := by
  have hg : KeepsOriented ⟨[[.pair ⟨1⟩ ⟨2⟩, .pair ⟨0⟩ ⟨1⟩, .pair ⟨1⟩ ⟨2⟩]]⟩ (.pair ⟨1⟩ ⟨2⟩) := by
    rw [KeepsOriented]
    decide
  have ⟨s, hs, _, _, hcount⟩ := rearrange_keeps_oriented
    ⟨[[.pair ⟨1⟩ ⟨2⟩, .pair ⟨0⟩ ⟨1⟩, .pair ⟨1⟩ ⟨2⟩]]⟩ .empty .lowestId
  exact ⟨hg, s, hs, hcount _ hg⟩

/-- The cone of the first qubit keeps the last gate, and the first one is taken away for it: the
pair of the last two qubits runs twice in one orientation and never in the other. -/
theorem rearrange_swaps_shared_pair :
    (∀ g ∈ gates ⟨[[.pair ⟨1⟩ ⟨2⟩, .pair ⟨0⟩ ⟨1⟩, .pair ⟨2⟩ ⟨1⟩]]⟩, ¬ g.IsLoop) ∧
    (gates ⟨[[.pair ⟨1⟩ ⟨2⟩, .pair ⟨0⟩ ⟨1⟩, .pair ⟨2⟩ ⟨1⟩]]⟩).count (.pair ⟨1⟩ ⟨2⟩) = 1 ∧
    ∃ s, rearrange ⟨[[.pair ⟨1⟩ ⟨2⟩, .pair ⟨0⟩ ⟨1⟩, .pair ⟨2⟩ ⟨1⟩]]⟩ .empty .lowestId = .ok s ∧
      s.gates.count (.pair ⟨1⟩ ⟨2⟩) = 0 ∧ s.gates.count (.pair ⟨2⟩ ⟨1⟩) = 2 := by
  have hrounds : retirements .lowestId ⟨[[.pair ⟨1⟩ ⟨2⟩, .pair ⟨0⟩ ⟨1⟩, .pair ⟨2⟩ ⟨1⟩]]⟩ =
      .ok [⟨⟨0⟩, ⟨[[.pair ⟨0⟩ ⟨1⟩, .pair ⟨2⟩ ⟨1⟩]]⟩⟩, ⟨⟨1⟩, ⟨[[.pair ⟨2⟩ ⟨1⟩]]⟩⟩] := by
    have hfirst : narrowest ⟨[[.pair ⟨1⟩ ⟨2⟩, .pair ⟨0⟩ ⟨1⟩, .pair ⟨2⟩ ⟨1⟩]]⟩ .lowestId =
        some (⟨0⟩, 3) := rfl
    have hrest : subtract ⟨[[.pair ⟨1⟩ ⟨2⟩, .pair ⟨0⟩ ⟨1⟩, .pair ⟨2⟩ ⟨1⟩]]⟩
        ⟨[[.pair ⟨0⟩ ⟨1⟩, .pair ⟨2⟩ ⟨1⟩]]⟩ = .ok ⟨[[.pair ⟨2⟩ ⟨1⟩]]⟩ := rfl
    have hsecond : narrowest ⟨[[.pair ⟨2⟩ ⟨1⟩]]⟩ .lowestId = some (⟨1⟩, 2) := rfl
    have hlast : subtract ⟨[[.pair ⟨2⟩ ⟨1⟩]]⟩ ⟨[[.pair ⟨2⟩ ⟨1⟩]]⟩ = .ok ⟨[[]]⟩ := rfl
    rw [retirements_of_some hfirst hrest, retirements_of_some hsecond hlast,
      retirements_of_none rfl]
    rfl
  refine ⟨by decide, by decide, ⟨[.block [.pair ⟨0⟩ ⟨1⟩, .pair ⟨2⟩ ⟨1⟩], .release ⟨0⟩,
    .block [.pair ⟨2⟩ ⟨1⟩], .release ⟨1⟩]⟩, ?_, by decide, by decide⟩
  rw [rearrange, hrounds]
  rfl

end Circuit

end QubitReuse
