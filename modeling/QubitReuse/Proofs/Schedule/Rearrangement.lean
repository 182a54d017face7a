import QubitReuse.Proofs.Schedule.Exhaustion
import QubitReuse.Proofs.Schedule.Linearisation

namespace QubitReuse

namespace Retirement

variable {frozen : QubitSet} {r : Retirement}

theorem mem_steps {st : Step} : st ∈ r.steps frozen ↔
    (∃ l ∈ r.cone.layers, l ≠ [] ∧ st = .block l) ∨ r.qubit ∉ frozen ∧ st = .release r.qubit := by
  rw [steps, List.mem_append, List.mem_map]
  apply or_congr
  · apply exists_congr
    intro l
    rw [List.mem_filter, and_assoc, Bool.not_eq_true', List.isEmpty_eq_false_iff,
      eq_comm (a := st)]
  · split
    · rename_i h
      exact iff_of_false List.not_mem_nil fun h' => h'.1 h
    · rename_i h
      exact List.mem_singleton.trans (and_iff_right h).symm

theorem eq_of_steps_eq_append {before after : List Step} {q : Qubit}
    (h : r.steps frozen = before ++ .release q :: after) :
    before = (r.cone.layers.filter (!·.isEmpty)).map .block ∧ q = r.qubit := by
  have hblocks : .release q ∉ (r.cone.layers.filter (!·.isEmpty)).map Step.block := by
    intro hq
    have ⟨l, _, hl⟩ := List.mem_map.1 hq
    cases hl
  rw [steps] at h
  split at h
  · rw [List.append_nil] at h
    exact absurd (h ▸ List.mem_append_right before List.mem_cons_self) hblocks
  · cases List.append_eq_append_iff.1 h with
    | inl hl =>
      have ⟨as, hbefore, has⟩ := hl
      cases as with
      | nil =>
        cases has
        exact ⟨hbefore.trans (List.append_nil _), rfl⟩
      | cons a as => cases as <;> cases has
    | inr hr =>
      have ⟨bs, hbefore, hbs⟩ := hr
      cases bs with
      | nil =>
        cases hbs
        exact ⟨((List.append_nil before).symm.trans hbefore.symm), rfl⟩
      | cons b bs =>
        have ⟨hb, _⟩ := List.cons.inj hbs
        rw [← hb] at hbefore
        exact absurd (hbefore ▸ List.mem_append_right before List.mem_cons_self) hblocks

theorem flatMap_gates_blocks (ls : List Layer) :
    ((ls.filter (!·.isEmpty)).map Step.block).flatMap Step.gates = ls.flatten := by
  induction ls with
  | nil => rfl
  | cons l ls ih =>
    cases l with
    | nil => exact ih
    | cons g l => exact congrArg ((g :: l) ++ ·) ih

theorem flatMap_gates_steps : (r.steps frozen).flatMap Step.gates = r.cone.gates := by
  rw [steps, List.flatMap_append, flatMap_gates_blocks]
  split
  · exact List.append_nil _
  · exact List.append_nil _

theorem not_mem_frozen_of_release {rs : List Retirement} {q : Qubit}
    (h : .release q ∈ rs.flatMap (·.steps frozen)) : q ∉ frozen := by
  have ⟨r, _, hr⟩ := List.mem_flatMap.1 h
  cases mem_steps.1 hr with
  | inl hblock =>
    have ⟨_, _, _, hl⟩ := hblock
    cases hl
  | inr hrelease =>
    cases hrelease.2
    exact hrelease.1

theorem ne_nil_of_block {rs : List Retirement} {l : Layer}
    (h : .block l ∈ rs.flatMap (·.steps frozen)) : l ≠ [] := by
  have ⟨r, _, hr⟩ := List.mem_flatMap.1 h
  cases mem_steps.1 hr with
  | inl hblock =>
    have ⟨_, _, hne, hl⟩ := hblock
    cases hl
    exact hne
  | inr hrelease => cases hrelease.2

end Retirement

theorem Schedule.exists_block_of_touches {s : Schedule} {g : Gate} (hg : g ∈ s.gates)
    (hq : g.Touches q) :
    ∃ l, .block l ∈ s.steps ∧ q ∈ Layer.ends l := by
  have ⟨st, hst, hgst⟩ := List.mem_flatMap.1 hg
  cases st with
  | block l => exact ⟨l, hst, Layer.mem_ends.2 ⟨g, hgst, hq⟩⟩
  | release r => cases hgst

namespace Schedule.RestsAfterRelease

variable {s : Schedule} {before after : List Step} {q : Qubit}

theorem not_released_before (h : s.RestsAfterRelease)
    (hs : s.steps = before ++ .release q :: after) : .release q ∉ before := by
  intro hq
  rw [RestsAfterRelease, hs, List.pairwise_append] at h
  exact h.2.2 _ hq _ List.mem_cons_self q rfl List.mem_cons_self

theorem not_mem_qubits_after (h : s.RestsAfterRelease)
    (hs : s.steps = before ++ .release q :: after) {st : Step} (hst : st ∈ after) :
    q ∉ st.qubits := by
  rw [RestsAfterRelease, hs, List.pairwise_append, List.pairwise_cons] at h
  exact h.2.1.1 st hst q rfl

end Schedule.RestsAfterRelease

namespace Circuit.Exhausts

variable {c : Circuit} {rs : List Retirement} {frozen : QubitSet}

theorem mem_qubits_of_step (h : c.Exhausts rs) {st : Step} {q : Qubit}
    (hst : st ∈ rs.flatMap (·.steps frozen)) (hq : q ∈ st.qubits) : q ∈ c.qubits := by
  induction h with
  | idle => cases hst
  | retire hqc hs _ ih =>
    cases List.mem_append.1 hst with
    | inl hst =>
      cases Retirement.mem_steps.1 hst with
      | inl hblock =>
        have ⟨l, hl, _, hstl⟩ := hblock
        rw [hstl] at hq
        have ⟨g, hg, hgq⟩ := Layer.mem_ends.1 hq
        have ⟨i, hi⟩ := mem_gates_iff.1 (List.mem_flatten.2 ⟨l, hl, hg⟩)
        exact mem_qubits.2
          ⟨g, mem_gates_iff.2 ⟨i, (splits_pastCone hs).first_sublist.subset hi⟩, hgq⟩
      | inr hrelease =>
        rw [hrelease.2] at hq
        exact List.mem_singleton.1 hq ▸ hqc
    | inr hst => exact (mem_qubits_of_subtract hs (ih hst)).1

theorem restsAfterRelease (h : c.Exhausts rs) (frozen : QubitSet) :
    Schedule.RestsAfterRelease ⟨rs.flatMap (·.steps frozen)⟩ := by
  induction h with
  | idle => exact .nil
  | retire _ hs hex ih =>
    refine List.pairwise_append.2 ⟨?_, ih, ?_⟩
    · refine List.pairwise_append.2 ⟨?_, ?_, ?_⟩
      · exact List.pairwise_map.2 (List.pairwise_of_forall fun _ _ _ => nofun)
      · split
        · exact .nil
        · exact List.pairwise_singleton _ _
      · intro a ha b _ q hq
        have ⟨l, _, hl⟩ := List.mem_map.1 ha
        cases hl.trans hq
    · intro a ha b hb q hq hqb
      cases Retirement.mem_steps.1 ha with
      | inl hblock =>
        have ⟨l, _, _, hl⟩ := hblock
        cases hl.symm.trans hq
      | inr hrelease =>
        cases hrelease.2.symm.trans hq
        exact (mem_qubits_of_subtract hs (hex.mem_qubits_of_step hb hqb)).2 rfl

theorem exists_block_of_release (h : c.Exhausts rs) {before after : List Step} {q : Qubit}
    (hst : rs.flatMap (·.steps frozen) = before ++ .release q :: after) :
    ∃ l, .block l ∈ before ∧ ∃ g ∈ l, g.Touches q := by
  induction h generalizing before with
  | idle =>
    have h := congrArg List.length hst
    simp at h
  | retire hqc hs _ ih =>
    cases List.append_eq_append_iff.1 hst with
    | inl hlater =>
      have ⟨before', hbefore, hst'⟩ := hlater
      have ⟨l, hl, ht⟩ := ih hst'
      exact ⟨l, hbefore ▸ List.mem_append_right _ hl, ht⟩
    | inr hhere =>
      have ⟨tail, hsteps, htail⟩ := hhere
      cases tail with
      | nil =>
        have ⟨l, hl, _⟩ := ih (htail.symm.trans (List.nil_append _).symm)
        cases hl
      | cons st tail =>
        have ⟨hst, _⟩ := List.cons.inj htail
        rw [← hst] at hsteps
        have ⟨hbefore, hq⟩ := Retirement.eq_of_steps_eq_append hsteps
        have ⟨g, hg, hgq⟩ := mem_qubits.1 hqc
        have ⟨g', hg', hgq'⟩ := exists_touches_pastCone hg hgq (QubitSet.mem_single.2 rfl)
        have ⟨l, hl, hgl⟩ := List.mem_flatten.1 hg'
        have hne : (!l.isEmpty) = true := by
          simpa using List.ne_nil_of_mem hgl
        rw [hbefore, hq]
        exact ⟨l, List.mem_map_of_mem (List.mem_filter.2 ⟨hl, hne⟩), g', hgl, hgq'⟩

theorem gates_eq (rs : List Retirement) (frozen : QubitSet) :
    Schedule.gates ⟨rs.flatMap (·.steps frozen)⟩ = (retiredGates rs).map Prod.snd := by
  rw [Schedule.gates, List.flatMap_assoc, retiredGates, List.map_flatMap]
  apply congrArg (List.flatMap · rs)
  funext r
  rw [Retirement.flatMap_gates_steps, map_snd_layeredGates]

theorem linearises (h : c.Exhausts rs) :
    Schedule.Linearises ⟨rs.flatMap (·.steps frozen)⟩ c := by
  apply Schedule.linearises_of_perm h.perm
  · rw [gates_eq, Layer.unoriented, List.map_map, List.map_map]
    rfl
  · exact List.pairwise_map.2 (h.pairwise.imp inLayerOrder_unorientedAt.2)

theorem exists_block_of_mem_qubits (h : c.Exhausts rs) (frozen : QubitSet) {q : Qubit}
    (hq : q ∈ c.qubits) : ∃ l, .block l ∈ rs.flatMap (·.steps frozen) ∧ q ∈ Layer.ends l := by
  have hlin : Schedule.Linearises ⟨rs.flatMap (·.steps frozen)⟩ c := h.linearises
  have hends := hlin.mem_ends_gates.2 (Layer.mem_ends.2 (mem_qubits.1 hq))
  have ⟨g, hg, hgq⟩ := Layer.mem_ends.1 hends
  exact Schedule.exists_block_of_touches hg hgq

end Circuit.Exhausts

namespace Circuit

theorem rearrange_of_retirements {c : Circuit} {t : TieBreak} {rs : List Retirement}
    (h : c.retirements t = .ok rs) (frozen : QubitSet) :
    c.rearrange frozen t = .ok ⟨rs.flatMap (·.steps frozen)⟩ := by
  rw [rearrange, h]
  rfl

theorem exists_rearrange (c : Circuit) (frozen : QubitSet) (t : TieBreak) :
    ∃ rs, c.retirements t = .ok rs ∧ c.Exhausts rs ∧
      c.rearrange frozen t = .ok ⟨rs.flatMap (·.steps frozen)⟩ := by
  have ⟨rs, hrs, hex⟩ := exists_exhausts t c
  exact ⟨rs, hrs, hex, rearrange_of_retirements hrs frozen⟩

/-- There is one retirement for each round. -/
theorem rearrange_total_and_valid (c : Circuit) (frozen : QubitSet) (t : TieBreak) :
    ∃ rs s, c.retirements t = .ok rs ∧ rs.length ≤ c.qubits.size ∧
      c.rearrange frozen t = .ok s ∧ (∃ r, s.checkOrder c = .ok r) ∧
      (∀ l, .block l ∈ s.steps → l ≠ []) ∧
      ∀ before q after, s.steps = before ++ .release q :: after →
        q ∉ frozen ∧ q ∈ c.qubits ∧ .release q ∉ before ∧ .release q ∉ after ∧
        (∃ l, .block l ∈ before ∧ ∃ g ∈ l, g.Touches q) ∧
        ∀ l, .block l ∈ after → ∀ g ∈ l, ¬ g.Touches q := by
  have ⟨rs, hrs, hex, hs⟩ := exists_rearrange c frozen t
  have hrest := hex.restsAfterRelease frozen
  refine ⟨rs, _, hrs, hex.length_le, hs,
    ⟨_, Schedule.checkOrder_eq_ok_iff.2 ⟨hex.linearises, hrest, rfl⟩⟩,
    fun l => Retirement.ne_nil_of_block, ?_⟩
  intro before q after hsteps
  change rs.flatMap (·.steps frozen) = before ++ .release q :: after at hsteps
  have hmem : .release q ∈ rs.flatMap (·.steps frozen) :=
    hsteps ▸ List.mem_append_right before List.mem_cons_self
  refine ⟨Retirement.not_mem_frozen_of_release hmem,
    hex.mem_qubits_of_step hmem List.mem_cons_self, hrest.not_released_before hsteps, ?_,
    hex.exists_block_of_release hsteps, ?_⟩
  · intro hq
    exact hrest.not_mem_qubits_after hsteps hq List.mem_cons_self
  · intro l hl g hg hgq
    exact hrest.not_mem_qubits_after hsteps hl (Layer.mem_ends.2 ⟨g, hg, hgq⟩)

end Circuit

end QubitReuse
