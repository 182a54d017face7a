import Mathlib.Data.List.Forall2
import QubitReuse.Proofs.Cone.Matching
import QubitReuse.Proofs.Cone.Width
import QubitReuse.Proofs.Schedule.Rearrangement
import QubitReuse.Proofs.Schedule.Selection

namespace QubitReuse

/-- A relation of circuits that a round keeps, in which the second circuit has the names `f` for the
qubits of the first one. -/
structure Lockstep (f : Qubit → Qubit) (t t' : TieBreak) (R : Circuit → Circuit → Prop) :
    Prop where
  mem_qubits : ∀ c c', R c c' → ∀ r, r ∈ c'.qubits ↔ ∃ q ∈ c.qubits, f q = r
  favors : ∀ c c', R c c' → ∀ q ∈ c.qubits, ∀ r ∈ c.qubits, t.Favors q r → t'.Favors (f q) (f r)
  pastCone : ∀ c c', R c c' → ∀ q ∈ c.qubits,
    R (c.pastCone (.single q)) (c'.pastCone (.single (f q)))
  subtract : ∀ c c', R c c' → ∀ q ∈ c.qubits, ∀ rest rest',
    c.subtract (c.pastCone (.single q)) = .ok rest →
      c'.subtract (c'.pastCone (.single (f q))) = .ok rest' → R rest rest'

namespace Lockstep

variable {f : Qubit → Qubit} {t t' : TieBreak} {R : Circuit → Circuit → Prop} {c c' : Circuit}
  {q r : Qubit}

theorem injective (h : Lockstep f t t' R) (hc : R c c') (hq : q ∈ c.qubits) (hr : r ∈ c.qubits)
    (hqr : f q = f r) : q = r :=
  TieBreak.eq_of_favors (h.favors c c' hc q hq r hr) (h.favors c c' hc r hr q hq) hqr

theorem size_qubits (h : Lockstep f t t' R) (hc : R c c') : c'.qubits.size = c.qubits.size :=
  QubitSet.size_eq_of_image (fun _ hq _ hr => h.injective hc hq hr) (h.mem_qubits c c' hc)

theorem ancestorWidth (h : Lockstep f t t' R) (hc : R c c') (hq : q ∈ c.qubits) :
    c'.ancestorWidth (.single (f q)) = c.ancestorWidth (.single q) := by
  rw [Circuit.ancestorWidth_eq_size, Circuit.ancestorWidth_eq_size]
  exact h.size_qubits (h.pastCone c c' hc q hq)

theorem chooses (h : Lockstep f t t' R) (hc : R c c')
    (hq : t.Chooses (fun q => c.ancestorWidth (.single q)) c.qubits.toList q) :
    t'.Chooses (fun q => c'.ancestorWidth (.single q)) c'.qubits.toList (f q) := by
  refine ⟨(h.mem_qubits c c' hc _).2 ⟨q, hq.mem, rfl⟩, ?_, ?_⟩
  · intro r hr
    obtain ⟨p, hp, rfl⟩ := (h.mem_qubits c c' hc r).1 hr
    rw [h.ancestorWidth hc hq.mem, h.ancestorWidth hc hp]
    exact hq.least p hp
  · intro r hr hwidth hne
    obtain ⟨p, hp, rfl⟩ := (h.mem_qubits c c' hc r).1 hr
    rw [h.ancestorWidth hc hq.mem, h.ancestorWidth hc hp] at hwidth
    exact h.favors c c' hc q hq.mem p hp (hq.favored p hp hwidth fun hpq => hne (hpq ▸ rfl))

theorem narrowest (h : Lockstep f t t' R) (hc : R c c') {w : Nat}
    (hn : c.narrowest t = some (q, w)) : c'.narrowest t' = some (f q, w) := by
  obtain ⟨hq, rfl⟩ := Circuit.narrowest_eq_some_iff.1 hn
  exact Circuit.narrowest_eq_some_iff.2 ⟨h.chooses hc hq, (h.ancestorWidth hc hq.mem).symm⟩

theorem narrowest_eq_none (h : Lockstep f t t' R) (hc : R c c') (hn : c.narrowest t = none) :
    c'.narrowest t' = none := by
  apply Option.eq_none_iff_forall_ne_some.2
  rintro ⟨r, w⟩ hr
  have ⟨q, hq, _⟩ := (h.mem_qubits c c' hc r).1 (Circuit.mem_qubits_of_narrowest hr)
  have ⟨p, v, hp⟩ := Circuit.exists_narrowest t hq
  cases hp.symm.trans hn

theorem retirements (h : Lockstep f t t' R) (hc : R c c') :
    ∃ rs rs', c.retirements t = .ok rs ∧ c'.retirements t' = .ok rs' ∧
      List.Forall₂ (fun r r' => r.qubit ∈ c.qubits ∧ r'.qubit = f r.qubit ∧ R r.cone r'.cone)
        rs rs' := by
  induction c using Circuit.rounds_induct t generalizing c' with
  | idle c hn =>
    exact ⟨[], [], Circuit.retirements_of_none hn,
      Circuit.retirements_of_none (h.narrowest_eq_none hc hn), .nil⟩
  | retire c rest q n hn hs ih =>
    have hq := Circuit.mem_qubits_of_narrowest hn
    have hs' := c'.subtract_pastCone (.single (f q))
    have ⟨rs, rs', hrs, hrs', hall⟩ := ih (h.subtract c c' hc q hq _ _ hs hs')
    refine ⟨⟨q, c.pastCone (.single q)⟩ :: rs, ⟨f q, c'.pastCone (.single (f q))⟩ :: rs', ?_, ?_,
      .cons ⟨hq, rfl, h.pastCone c c' hc q hq⟩ (hall.imp fun r r' hr => ?_)⟩
    · rw [Circuit.retirements_of_some hn hs, hrs]
      rfl
    · rw [Circuit.retirements_of_some (h.narrowest hc hn) hs', hrs']
      rfl
    · exact ⟨(Circuit.mem_qubits_of_subtract hs hr.1).1, hr.2⟩

theorem rearrange (h : Lockstep f t t' R) (hc : R c c') {S : Step → Step → Prop}
    {frozen frozen' : QubitSet}
    (hblocks : ∀ c c', R c c' → List.Forall₂ S ((c.layers.filter (!·.isEmpty)).map .block)
      ((c'.layers.filter (!·.isEmpty)).map .block))
    (hrelease : ∀ q, S (.release q) (.release (f q)))
    (hfrozen : ∀ q ∈ c.qubits, f q ∈ frozen' ↔ q ∈ frozen) :
    ∃ s s', c.rearrange frozen t = .ok s ∧ c'.rearrange frozen' t' = .ok s' ∧
      List.Forall₂ S s.steps s'.steps := by
  have ⟨rs, rs', hrs, hrs', hall⟩ := h.retirements hc
  refine ⟨_, _, Circuit.rearrange_of_retirements hrs frozen,
    Circuit.rearrange_of_retirements hrs' frozen', List.rel_flatMap hall fun r r' hr => ?_⟩
  have ⟨hmem, hqubit, hcone⟩ := hr
  rw [Retirement.steps, Retirement.steps, hqubit]
  refine List.rel_append (hblocks _ _ hcone) ?_
  by_cases hq : r.qubit ∈ frozen
  · rw [if_pos hq, if_pos ((hfrozen _ hmem).2 hq)]
    exact .nil
  · rw [if_neg hq, if_neg ((hfrozen _ hmem).not.2 hq)]
    exact .cons (hrelease _) .nil

end Lockstep

inductive Step.Match (f : Qubit → Qubit) (G : Gate → Gate → Prop) : Step → Step → Prop
  | block {l l' : Layer} : List.Forall₂ G l l' → Match f G (.block l) (.block l')
  | release (q : Qubit) : Match f G (.release q) (.release (f q))

namespace Matching

variable {f : Qubit → Qubit} {used : Qubit → Prop} {G : Gate → Gate → Prop} {t t' : TieBreak}

theorem lockstep (m : Matching f used G)
    (hfavors : ∀ q r, used q → used r → t.Favors q r → t'.Favors (f q) (f r)) :
    Lockstep f t t' (Circuit.Match G) := by
  have hcone : ∀ c c' : Circuit, c.Match G c' → ∀ q ∈ c.qubits,
      (c.pastCone (.single q)).Match G (c'.pastCone (.single (f q))) := by
    intro c c' hc q hq
    apply m.pastCone hc
    intro p hp
    rw [QubitSet.mem_single, QubitSet.mem_single]
    exact ⟨m.injective p q hp (m.used_of_mem_qubits hc hq), congrArg f⟩
  constructor
  case mem_qubits => exact fun c c' hc r => m.mem_qubits hc
  case favors =>
    intro c c' hc q hq r hr
    exact hfavors q r (m.used_of_mem_qubits hc hq) (m.used_of_mem_qubits hc hr)
  case pastCone => exact hcone
  case subtract =>
    intro c c' hc q hq rest rest' hs hs'
    rcases m.subtract hc (hcone c c' hc q hq) with ⟨e, he, _⟩ | ⟨d, d', hd, hd', hmatch⟩
    · cases he.symm.trans hs
    · cases hd.symm.trans hs
      cases hd'.symm.trans hs'
      exact hmatch

theorem rearrange (m : Matching f used G)
    (hfavors : ∀ q r, used q → used r → t.Favors q r → t'.Favors (f q) (f r)) {c c' : Circuit}
    (hc : c.Match G c') {frozen frozen' : QubitSet}
    (hfrozen : ∀ q, used q → (f q ∈ frozen' ↔ q ∈ frozen)) :
    ∃ s s', c.rearrange frozen t = .ok s ∧ c'.rearrange frozen' t' = .ok s' ∧
      List.Forall₂ (Step.Match f G) s.steps s'.steps := by
  apply (m.lockstep hfavors).rearrange hc
  · intro c c' hc
    have hempty : ∀ {l l' : Layer}, List.Forall₂ G l l' → (!l.isEmpty) = !l'.isEmpty := by
      intro l l' hl
      cases hl with
      | nil => rfl
      | cons _ _ => rfl
    exact List.rel_map (fun _ _ hl => .block hl)
      (List.rel_filter (fun _ _ hl => Bool.eq_iff_iff.1 (hempty hl)) hc)
  · exact .release
  · exact fun q hq => hfrozen q (m.used_of_mem_qubits hc hq)

end Matching

end QubitReuse
