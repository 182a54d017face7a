import QubitReuse.Proofs.Cone.Matching
import QubitReuse.Proofs.Cone.Reach
import QubitReuse.Proofs.Cone.Width

namespace QubitReuse

theorem matching_id (used : Qubit → Prop) :
    Matching id used fun g g' => g = g' ∧ ∀ q, g.Touches q → used q := by
  constructor
  case injective => exact fun _ _ _ _ h => h
  case used => exact fun _ _ h => h.2
  case touches =>
    rintro g _ ⟨rfl, -⟩ r
    simp
  case alike =>
    rintro g _ h _ ⟨rfl, -⟩ ⟨rfl, -⟩
    exact Iff.rfl

theorem Circuit.match_self (c : Circuit) :
    c.Match (fun g g' => g = g' ∧ ∀ q, g.Touches q → q ∈ c.qubits) c := by
  refine List.forall₂_same.2 fun l hl => List.forall₂_same.2 fun g hg => ⟨rfl, fun q hq => ?_⟩
  exact mem_qubits.2 ⟨g, List.mem_flatten.2 ⟨l, hl, hg⟩, hq⟩

namespace Sweep

variable {ls : List Layer} {s t : Sweep}

theorem layers_congr (h : ∀ q ∈ Circuit.qubits ⟨ls⟩, t.Live q ↔ s.Live q) :
    (layers ls s).1 = (layers ls t).1 := by
  have hkept := ((matching_id _).layers (Circuit.match_self ⟨ls⟩) h).1
  exact eq_of_forall₂ (fun _ _ => eq_of_forall₂ fun _ _ hg => hg.1) hkept

theorem layer_layer (l : Layer) (h : ∀ q, s.Live q → t.Live q) :
    layer (layer l t).1 s = layer l s := by
  induction l generalizing s t with
  | nil => rfl
  | cons g l ih =>
    by_cases ht : g.ends.any t.live.contains = true
    · have habsorb : ∀ q, s.Live q → (t.absorb g).Live q :=
        fun q hq => live_absorb_iff.2 (.inr (h q hq))
      have habsorb' : ∀ q, (s.absorb g).Live q → (t.absorb g).Live q :=
        fun q hq => live_absorb_iff.2 ((live_absorb_iff.1 hq).imp_right (h q))
      simp only [layer, if_pos ht, ih habsorb, ih habsorb']
    · have hs : ¬ g.ends.any s.live.contains = true := by
        intro hs
        obtain ⟨q, hgq, hq⟩ := keeps_iff.1 hs
        exact ht (keeps_iff.2 ⟨q, hgq, h q hq⟩)
      simp only [layer, if_neg ht, if_neg hs, ih h]

theorem layers_layers (ls : List Layer) (h : ∀ q, s.Live q → t.Live q) :
    layers (layers ls t).1 s = layers ls s := by
  induction ls with
  | nil => rfl
  | cons l ls ih =>
    have hlive : ∀ q, (layers ls s).2.Live q → (layers ls t).2.Live q := by
      intro q hq
      refine live_layers.2 ((live_layers.1 hq).imp (h q) ?_)
      rintro ⟨k, hk, g, hg, hgq⟩
      rw [← ih] at hk
      obtain ⟨k', hk', hsub⟩ := exists_sublist_of_mem_layers hk
      exact ⟨k', hk', g, hsub.subset hg, hgq⟩
    simp only [layers, ih, layer_layer l hlive]

theorem forall₂_sublist_layers (ls : List Layer) (s : Sweep) :
    List.Forall₂ List.Sublist (layers ls s).1 ls := by
  induction ls with
  | nil => exact .nil
  | cons l ls ih => exact .cons (sublist_layer l _) ih

end Sweep

namespace Circuit

variable {c : Circuit} {s t : QubitSet} {p : Place} {g : Gate}

theorem pastCone_congr (h : ∀ q ∈ c.qubits, q ∈ t ↔ q ∈ s) : c.pastCone s = c.pastCone t := by
  apply congrArg Circuit.mk
  apply Sweep.layers_congr
  intro q hq
  rw [Sweep.live_start, Sweep.live_start, h q hq]

theorem pastCone_append (c d : Circuit) (s : QubitSet) :
    (c ++ d).pastCone s = c.pastCone (s ∪ (d.pastCone s).qubits) ++ d.pastCone s := by
  have hlater : (Sweep.layers d.layers (.start (c ++ d) s)).1 = (d.pastCone s).layers := by
    apply Sweep.layers_congr
    intro q _
    rw [Sweep.live_start, Sweep.live_start]
  have hlive : ∀ q, (Sweep.layers d.layers (.start (c ++ d) s)).2.Live q ↔
      q ∈ s ∪ (d.pastCone s).qubits := by
    intro q
    rw [Sweep.Live, Sweep.live_layers, hlater, QubitSet.mem_union, mem_qubits_iff_exists_layer]
    simp only [Layer.mem_ends]
    exact or_congr_left Sweep.live_start
  have hearlier : (Sweep.layers c.layers (Sweep.layers d.layers (.start (c ++ d) s)).2).1 =
      (c.pastCone (s ∪ (d.pastCone s).qubits)).layers := by
    apply Sweep.layers_congr
    intro q _
    rw [hlive, Sweep.live_start]
  apply congrArg Circuit.mk
  rw [layers_append, Sweep.layers_append, hlater, hearlier]

/-- A sweep that goes on from the last layers of a circuit to the first ones is a sweep through the
last layers, and one through the first layers from what that has reached. -/
theorem pastCone_composes (c d : Circuit) (s : QubitSet) :
    (c ++ d).pastCone s = c.pastCone (s ∪ (d.pastCone s).qubits) ++ d.pastCone s ∧
      (c ++ d).ancestorWidth s =
        ((c.pastCone (s ∪ (d.pastCone s).qubits)).qubits ∪ (d.pastCone s).qubits).size := by
  refine ⟨pastCone_append c d s, ?_⟩
  rw [ancestorWidth_eq_size, pastCone_append]
  apply QubitSet.size_eq_of_image (fun _ _ _ _ => id)
  intro q
  simp [mem_qubits_append, -mem_qubits]

theorem pastCone_pastCone (c : Circuit) (h : s ⊆ t) :
    (c.pastCone t).pastCone s = c.pastCone s := by
  have hstart : (Sweep.layers (c.pastCone t).layers (.start (c.pastCone t) s)).1 =
      (Sweep.layers (c.pastCone t).layers (.start c s)).1 := by
    apply Sweep.layers_congr
    intro q _
    rw [Sweep.live_start, Sweep.live_start]
  have hlive : ∀ q, (Sweep.start c s).Live q → (Sweep.start c t).Live q :=
    fun q hq => Sweep.live_start.2 (h q (Sweep.live_start.1 hq))
  apply congrArg Circuit.mk
  rw [hstart]
  exact congrArg Prod.fst (Sweep.layers_layers c.layers hlive)

theorem forall₂_sublist_pastCone (c : Circuit) (h : s ⊆ t) :
    List.Forall₂ List.Sublist (c.pastCone s).layers (c.pastCone t).layers := by
  rw [← pastCone_pastCone c h]
  exact Sweep.forall₂_sublist_layers _ _

theorem ancestorWidth_mono (c : Circuit) (h : s ⊆ t) :
    c.ancestorWidth s ≤ c.ancestorWidth t := by
  rw [ancestorWidth_eq_size, ancestorWidth_eq_size, ← pastCone_pastCone c h]
  exact QubitSet.size_le_size fun q hq => mem_qubits_of_pastCone hq

theorem reaches_mono (hst : s ⊆ t) (h : Reaches c s p) : Reaches c t p := by
  induction h with
  | touch hg hq hs => exact .touch hg hq (hst _ hs)
  | chain _ hg' hg hq' hq hafter ih => exact .chain ih hg' hg hq' hq hafter

theorem reaches_union_iff : Reaches c (s ∪ t) p ↔ Reaches c s p ∨ Reaches c t p := by
  constructor
  · intro h
    induction h with
    | touch hg hq hst => exact (QubitSet.mem_union.1 hst).imp (.touch hg hq) (.touch hg hq)
    | chain _ hg' hg hq' hq hafter ih =>
      exact ih.imp (.chain · hg' hg hq' hq hafter) (.chain · hg' hg hq' hq hafter)
  · rintro (h | h)
    · exact reaches_mono (fun q hq => QubitSet.mem_union.2 (.inl hq)) h
    · exact reaches_mono (fun q hq => QubitSet.mem_union.2 (.inr hq)) h

theorem keeps_union (c : Circuit) (s t : QubitSet) (p : Place) :
    c.keeps (s ∪ t) p = (c.keeps s p || c.keeps t p) := by
  rw [Bool.eq_iff_iff, Bool.or_eq_true, keeps_iff_reaches, keeps_iff_reaches, keeps_iff_reaches,
    reaches_union_iff]

theorem mem_gates_of_gateAt? (h : c.gateAt? p = some g) : g ∈ c.gates := by
  rw [gateAt?] at h
  cases hl : c.layers[p.layer]? with
  | none =>
    rw [hl] at h
    cases h
  | some l =>
    rw [hl] at h
    exact List.mem_flatten.2 ⟨l, List.mem_of_getElem? hl, List.mem_of_getElem? h⟩

theorem exists_touches_of_reaches (h : Reaches c s p) : ∃ g ∈ c.gates, ∃ q ∈ s, g.Touches q := by
  induction h with
  | touch hg hq hs => exact ⟨_, mem_gates_of_gateAt? hg, _, hs, hq⟩
  | chain _ _ _ _ _ _ ih => exact ih

theorem ancestorWidth_single_eq_zero_iff {q : Qubit} :
    c.ancestorWidth (.single q) = 0 ↔ ∀ g ∈ c.gates, ¬ g.Touches q := by
  constructor
  · intro h g hg hgq
    have hpos := ancestorWidth_pos (mem_qubits.2 ⟨g, hg, hgq⟩) (QubitSet.mem_single.2 rfl)
    exact Nat.ne_of_gt hpos h
  · intro h
    have hnone : ∀ l ∈ (c.pastCone (.single q)).layers, ∀ r ∈ Layer.ends l,
        r ∈ ([] : List Qubit) := by
      intro l hl r hr
      obtain ⟨i, hi⟩ := List.mem_iff_getElem?.1 hl
      obtain ⟨g, hg, _⟩ := Layer.mem_ends.1 hr
      obtain ⟨j, _, hkept⟩ := exists_mem_layer_pastCone_iff.1 ⟨l, hi, hg⟩
      obtain ⟨g', hg', q', hq', htouch⟩ := exists_touches_of_reaches (reaches_of_keeps hkept)
      cases QubitSet.mem_single.1 hq'
      exact absurd htouch (h g' hg')
    exact Nat.le_zero.1 (ancestorWidth_le_length hnone)

theorem ancestorWidth_counts (c : Circuit) (s : QubitSet) :
    c.ancestorWidth s = (c.pastCone s).qubits.size ∧ c.ancestorWidth s ≤ c.qubits.size ∧
      ∀ q, c.ancestorWidth (.single q) = 0 ↔ ∀ g ∈ c.gates, ¬ g.Touches q := by
  refine ⟨ancestorWidth_eq_size c s, ?_, fun q => ancestorWidth_single_eq_zero_iff⟩
  rw [ancestorWidth_eq_size]
  exact QubitSet.size_le_size fun q hq => mem_qubits_of_pastCone hq

end Circuit

end QubitReuse
