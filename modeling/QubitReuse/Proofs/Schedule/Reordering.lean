import QubitReuse.Proofs.Circuit.Reordering
import QubitReuse.Proofs.Schedule.Lifetime
import QubitReuse.Proofs.Schedule.Lockstep
import QubitReuse.Proofs.Slot.Shape

namespace QubitReuse

variable {l l' k k' : Layer} {s s' : Sweep} {q : Qubit}

theorem Layer.perm_ends (h : l'.Perm l) : l'.ends.Perm l.ends := h.flatMap_right Gate.ends

theorem Layer.width_of_perm (h : l'.Perm l) : l'.width = l.width := (perm_ends h).length_eq

theorem Layer.pairwise_apart_of_perm (h : l'.Perm l) (hl : l.Pairwise Gate.Apart) :
    l'.Pairwise Gate.Apart :=
  h.symm.pairwise hl Gate.Apart.symm

theorem Layer.minus_eq_filter (hl : l.Pairwise Gate.Apart) (hk : k.Sublist l) :
    minus l k = l.filter fun g => decide (g ∉ k) := by
  induction hk with
  | slnil => rfl
  | @cons k l g hk ih =>
    have ⟨hg, hl⟩ := List.pairwise_cons.1 hl
    have hout : ∀ h ∈ k, ¬ g.Alike h := fun h hh halike => halike.not_apart (hg h (hk.subset hh))
    have hany : (k.any fun h => decide (g.Alike h)) = false := by simpa using hout
    have hmem : g ∉ k := fun hgk => hout g hgk rfl
    rw [minus, hany, List.filter_cons_of_pos (by simpa using hmem), ih hl]
    rfl
  | @cons_cons k l g hk ih =>
    have ⟨hg, hl⟩ := List.pairwise_cons.1 hl
    have halike : decide (g.Alike g) = true := decide_eq_true rfl
    rw [minus, List.any_cons, halike, Bool.true_or, if_pos rfl, List.eraseP_cons, halike,
      List.filter_cons_of_neg (by simp)]
    refine (ih hl).trans ?_
    apply List.filter_congr
    intro h hh
    have hne : h ≠ g := fun heq => Gate.Alike.not_apart (heq ▸ rfl) (hg h hh)
    simp [hne]

theorem Layer.perm_minus (hl : l.Pairwise Gate.Apart) (hk : k.Sublist l) (hk' : k'.Sublist l')
    (h : l'.Perm l) (hkept : k'.Perm k) : (minus l' k').Perm (minus l k) := by
  rw [minus_eq_filter hl hk, minus_eq_filter (pairwise_apart_of_perm h hl) hk']
  simp only [hkept.mem_iff]
  exact h.filter _

namespace Sweep

theorem perm_layer (hl : l.Pairwise Gate.Apart) (h : l'.Perm l)
    (hs : ∀ q, s'.Live q ↔ s.Live q) : (layer l' s').1.Perm (layer l s).1 := by
  rw [layer_eq_filter_of_apart hl, layer_eq_filter_of_apart (Layer.pairwise_apart_of_perm h hl)]
  have hkeeps : ∀ g : Gate, g.ends.any s'.live.contains = g.ends.any s.live.contains := by
    intro g
    rw [Bool.eq_iff_iff, keeps_iff, keeps_iff]
    exact exists_congr fun q => and_congr_right fun _ => hs q
  simp only [hkeeps]
  exact h.filter _

theorem live_layer_of_perm (hl : l.Pairwise Gate.Apart) (h : l'.Perm l)
    (hs : ∀ q, s'.Live q ↔ s.Live q) : (layer l' s').2.Live q ↔ (layer l s).2.Live q := by
  rw [live_layer, live_layer, hs q]
  simp only [(perm_layer hl h hs).mem_iff]

theorem perm_layers {ls ls' : List Layer} (hls : ∀ l ∈ ls, Layer.Disjoint l)
    (h : List.Forall₂ List.Perm ls' ls) (hs : ∀ q, s'.Live q ↔ s.Live q) :
    List.Forall₂ List.Perm (layers ls' s').1 (layers ls s).1 ∧
      ∀ q, (layers ls' s').2.Live q ↔ (layers ls s).2.Live q := by
  induction h with
  | nil => exact ⟨.nil, hs⟩
  | cons hl _ ih =>
    have ⟨hdisjoint, hls⟩ := List.forall_mem_cons.1 hls
    obtain ⟨hkept, hlive⟩ := ih hls
    exact ⟨.cons (perm_layer hdisjoint.pairwise_apart hl hlive) hkept,
      fun q => live_layer_of_perm hdisjoint.pairwise_apart hl hlive⟩

theorem perm_rest {ls ls' : List Layer} (hls : ∀ l ∈ ls, Layer.Disjoint l)
    (h : List.Forall₂ List.Perm ls' ls) (hs : ∀ q, s'.Live q ↔ s.Live q) :
    List.Forall₂ List.Perm (List.zipWith Layer.minus ls' (layers ls' s').1)
      (List.zipWith Layer.minus ls (layers ls s).1) := by
  induction h with
  | nil => exact .nil
  | cons hl hrest ih =>
    have ⟨hdisjoint, hls⟩ := List.forall_mem_cons.1 hls
    obtain ⟨_, hlive⟩ := perm_layers hls hrest hs
    have hkept := perm_layer hdisjoint.pairwise_apart hl hlive
    exact .cons (Layer.perm_minus hdisjoint.pairwise_apart (sublist_layer _ _)
      (sublist_layer _ _) hl hkept) (ih hls)

end Sweep

namespace Circuit

variable {c c' rest rest' : Circuit} {support : QubitSet}

theorem Reorders.perm_gates (h : c'.Reorders c) : c'.gates.Perm c.gates :=
  List.Perm.flatten_congr h

theorem Reorders.mem_qubits_iff (h : c'.Reorders c) : q ∈ c'.qubits ↔ q ∈ c.qubits := by
  rw [mem_qubits, mem_qubits]
  simp only [h.perm_gates.mem_iff]

theorem Reorders.size_qubits (h : c'.Reorders c) : c'.qubits.size = c.qubits.size :=
  QubitSet.size_eq_of_image (fun _ _ _ _ => id) (by simp [h.mem_qubits_iff])

theorem Reorders.width (h : c'.Reorders c) : c'.width = c.width := by
  have hwidths := forall₂_map_eq_iff.1 (h.imp fun _ _ hl => Layer.width_of_perm hl)
  rw [Circuit.width, Circuit.width, hwidths]

theorem Reorders.disjoint (h : c'.Reorders c) (hc : c.Disjoint) : c'.Disjoint := by
  intro l' hl'
  obtain ⟨l, hl, hperm⟩ := exists_of_mem_forall₂ h hl'
  exact (Layer.perm_ends hperm).nodup_iff.2 (hc l hl)

theorem Reorders.pastCone (h : c'.Reorders c) (hc : c.Disjoint) (support : QubitSet) :
    (c'.pastCone support).Reorders (c.pastCone support) := by
  apply (Sweep.perm_layers hc h _).1
  intro q
  rw [Sweep.live_start, Sweep.live_start]

theorem Reorders.ancestorWidth (h : c'.Reorders c) (hc : c.Disjoint) (support : QubitSet) :
    c'.ancestorWidth support = c.ancestorWidth support := by
  rw [ancestorWidth_eq_size, ancestorWidth_eq_size, (h.pastCone hc support).size_qubits]

theorem Reorders.subtract_pastCone (h : c'.Reorders c) (hc : c.Disjoint)
    (hs : c.subtract (c.pastCone support) = .ok rest)
    (hs' : c'.subtract (c'.pastCone support) = .ok rest') : rest'.Reorders rest := by
  rw [Circuit.subtract_pastCone, Except.ok.injEq] at hs hs'
  subst hs hs'
  apply Sweep.perm_rest hc h
  intro q
  rw [Sweep.live_start, Sweep.live_start]

theorem Disjoint.subtract {d : Circuit} (hc : c.Disjoint) (hs : c.subtract d = .ok rest) :
    rest.Disjoint := by
  rw [Circuit.subtract] at hs
  split at hs
  · cases hs
    intro k hk
    obtain ⟨i, hi, rfl⟩ := List.mem_iff_getElem.1 hk
    rw [List.getElem_zipWith]
    exact (hc _ (List.getElem_mem _)).sublist ((Layer.minus_sublist _ _).flatMap _)
  · cases hs

theorem lockstep_reorders (t : TieBreak) :
    Lockstep id t t fun c c' => c.Disjoint ∧ c'.Reorders c := by
  constructor
  case mem_qubits =>
    rintro c c' ⟨_, h⟩ r
    simp [h.mem_qubits_iff]
  case favors => exact fun _ _ _ _ _ _ _ => id
  case pastCone =>
    rintro c c' ⟨hc, h⟩ q _
    exact ⟨hc.pastCone _, h.pastCone hc _⟩
  case subtract =>
    rintro c c' ⟨hc, h⟩ q _ rest rest' hs hs'
    exact ⟨hc.subtract hs, h.subtract_pastCone hc hs hs'⟩

end Circuit

/-- The first step is the second one, with the gates of a block in some order. -/
inductive Step.Reorders : Step → Step → Prop
  | block {l' l : Layer} : l'.Perm l → Reorders (.block l') (.block l)
  | release (q : Qubit) : Reorders (.release q) (.release q)

def Schedule.Reorders (s' s : Schedule) : Prop := List.Forall₂ Step.Reorders s'.steps s.steps

namespace Step.Reorders

variable {st' st : Step}

theorem sameLives (h : st'.Reorders st) : st.SameLives st' := by
  intro q live
  cases h with
  | block hl =>
    rw [keepsLive, keepsLive, decide_eq_decide.2 (Layer.perm_ends hl).mem_iff]
  | release r => rfl

theorem layers (h : st'.Reorders st) : List.Forall₂ List.Perm st'.layers st.layers := by
  cases h with
  | @block l' l hl =>
    cases l with
    | nil =>
      rw [hl.eq_nil]
      exact .nil
    | cons g l =>
      cases l' with
      | nil => cases hl.nil_eq
      | cons g' l' => exact .cons hl .nil
  | release q => exact .cons (.refl _) .nil

end Step.Reorders

theorem Circuit.Reorders.rearrange {c c' : Circuit} (h : c'.Reorders c) (hc : c.Disjoint)
    (frozen : QubitSet) (t : TieBreak) :
    ∃ s s', c.rearrange frozen t = .ok s ∧ c'.rearrange frozen t = .ok s' ∧ s'.Reorders s := by
  have hblocks : ∀ c c' : Circuit, c.Disjoint ∧ c'.Reorders c →
      List.Forall₂ (fun st st' => st'.Reorders st)
        ((c.layers.filter (!·.isEmpty)).map Step.block)
        ((c'.layers.filter (!·.isEmpty)).map Step.block) := by
    rintro c c' ⟨_, h⟩
    have hempty : ∀ {l' l : Layer}, l'.Perm l → (!l.isEmpty) = !l'.isEmpty := by
      intro l' l hl
      rw [hl.isEmpty_eq]
    exact List.rel_map (fun _ _ hl => .block hl)
      (List.rel_filter (fun _ _ hl => Bool.eq_iff_iff.1 (hempty hl)) (List.Forall₂.flip h))
  have hfrozen : ∀ q ∈ c.qubits, id q ∈ frozen ↔ q ∈ frozen := fun _ _ => Iff.rfl
  obtain ⟨s, s', hs, hs', hsteps⟩ :=
    (lockstep_reorders t).rearrange ⟨hc, h⟩ hblocks .release hfrozen
  exact ⟨s, s', hs, hs', hsteps.flip⟩

end QubitReuse
