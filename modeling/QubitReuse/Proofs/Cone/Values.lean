import Mathlib.Data.List.Flatten
import QubitReuse.Proofs.Circuit.Commuting
import QubitReuse.Proofs.Cone.Closure

namespace QubitReuse

universe u

variable {V : Type u} {m : Device V} {v w : Values V}

namespace Sweep

def Live (s : Sweep) (q : Qubit) : Prop := s.live.contains q = true

theorem live_layer {l : Layer} {s : Sweep} {q : Qubit} :
    (layer l s).2.Live q ↔ s.Live q ∨ ∃ g ∈ (layer l s).1, g.Touches q :=
  contains_layer fun _ _ => rfl

theorem live_absorb_iff {s : Sweep} {g : Gate} {q : Qubit} :
    (s.absorb g).Live q ↔ g.Touches q ∨ s.Live q := by
  rw [Live, absorb, LiveSet.contains_foldl_insert, Bool.or_eq_true, decide_eq_true_iff]
  rfl

theorem live_start {c : Circuit} {support : QubitSet} {q : Qubit} :
    (start c support).Live q ↔ q ∈ support := by
  rw [Live, start, LiveSet.contains_ofSet, decide_eq_true_iff]

theorem layer_eq_filter_of_apart {l : Layer} {s : Sweep} (hl : l.Pairwise Gate.Apart) :
    (layer l s).1 = l.filter fun g => g.ends.any s.live.contains := by
  induction l generalizing s with
  | nil => rfl
  | cons g l ih =>
    have ⟨hg, hl⟩ := List.pairwise_cons.1 hl
    rw [layer, List.filter_cons]
    split
    · apply congrArg (g :: ·)
      refine (ih hl).trans (List.filter_congr fun g' hg' => ?_)
      rw [Bool.eq_iff_iff, List.any_eq_true, List.any_eq_true]
      refine exists_congr fun q => and_congr_right fun hq => ?_
      have hout : q ∉ g.ends := fun hq' => hg g' hg' q hq' hq
      rw [absorb, LiveSet.contains_foldl_insert, decide_eq_false hout, Bool.false_or]
    · exact ih hl

theorem agreeOn_layer {l : Layer} {s : Sweep} (hl : l.Pairwise Gate.Apart)
    (h : v.AgreeOn (layer l s).2.Live w) :
    (Layer.exec m l v).AgreeOn (layer l s).2.Live (Layer.exec m (layer l s).1 w) := by
  induction l generalizing s v w with
  | nil => exact h
  | cons g l ih =>
    have ⟨hg, hl⟩ := List.pairwise_cons.1 hl
    rw [layer] at h ⊢
    split at h
    · rename_i hkept
      rw [if_pos hkept]
      apply ih hl
      apply h.exec_gate
      intro q hq
      exact live_layer.2 (.inl (live_absorb_iff.2 (.inl hq)))
    · rename_i hleft
      -- Later gates of the layer can make more qubits live, but none that this gate touches.
      rw [if_neg hleft]
      apply ih hl
      intro q hq
      have htouch : ¬ g.Touches q := by
        intro hgq
        cases live_layer.1 hq with
        | inl hlive => exact hleft (keeps_iff.2 ⟨q, hgq, hlive⟩)
        | inr hkept =>
          obtain ⟨g', hg', hgq'⟩ := hkept
          exact hg g' ((sublist_layer l s).subset hg') q hgq hgq'
      exact (Gate.exec_of_not_touches m htouch v).trans (h q hq)

theorem agreeOn_layers {ls : List Layer} {s : Sweep} (hls : ∀ l ∈ ls, Layer.Disjoint l)
    (h : v.AgreeOn (layers ls s).2.Live w) :
    (Circuit.exec m ⟨ls⟩ v).AgreeOn s.Live (Circuit.exec m ⟨(layers ls s).1⟩ w) := by
  induction ls generalizing v w with
  | nil => exact h
  | cons l ls ih =>
    have ⟨hl, hls⟩ := List.forall_mem_cons.1 hls
    apply ih hls
    intro q hq
    exact agreeOn_layer hl.pairwise_apart h q (live_layer.2 (.inl hq))

theorem exists_sublist_of_mem_layers {ls : List Layer} {s : Sweep} {k : Layer}
    (h : k ∈ (layers ls s).1) : ∃ l ∈ ls, k.Sublist l := by
  induction ls with
  | nil => cases h
  | cons l ls ih =>
    cases List.mem_cons.1 h with
    | inl hk => exact ⟨l, List.mem_cons_self, hk ▸ sublist_layer l _⟩
    | inr hk =>
      have ⟨l', hl', hkl'⟩ := ih hk
      exact ⟨l', List.mem_cons_of_mem l hl', hkl'⟩

end Sweep

namespace Circuit

variable {c : Circuit} {support : QubitSet} {q : Qubit}

theorem exec_pastCone (hc : c.Disjoint) (hq : q ∈ support) :
    (c.pastCone support).exec m v q = c.exec m v q := by
  exact (Sweep.agreeOn_layers hc (fun _ _ => rfl) q (Sweep.live_start.2 hq)).symm

theorem Disjoint.pastCone (hc : c.Disjoint) (support : QubitSet) :
    (c.pastCone support).Disjoint := by
  intro k hk
  have ⟨l, hl, hkl⟩ := Sweep.exists_sublist_of_mem_layers hk
  exact (hc l hl).sublist (hkl.flatMap _)

theorem mem_qubits_of_pastCone (h : q ∈ (c.pastCone support).qubits) : q ∈ c.qubits := by
  have ⟨g, hg, hgq⟩ := mem_qubits.1 h
  have ⟨k, hk, hgk⟩ := List.mem_flatten.1 hg
  have ⟨l, hl, hkl⟩ := Sweep.exists_sublist_of_mem_layers hk
  exact mem_qubits.2 ⟨g, List.mem_flatten.2 ⟨l, hl, hkl.subset hgk⟩, hgq⟩

end Circuit

end QubitReuse
