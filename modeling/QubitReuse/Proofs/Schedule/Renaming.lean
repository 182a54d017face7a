import QubitReuse.Proofs.Schedule.Lockstep

namespace QubitReuse

variable {f : Qubit → Qubit} {used : Qubit → Prop}

namespace Gate

def Renames (f : Qubit → Qubit) (used : Qubit → Prop) (g g' : Gate) : Prop :=
  (∀ q, g.Touches q → used q) ∧ g.map f = g'

theorem alike_map_iff {g h : Gate} (hinj : ∀ q r, used q → used r → f q = f r → q = r)
    (hg : ∀ q, g.Touches q → used q) (hh : ∀ q, h.Touches q → used q) :
    (g.map f).Alike (h.map f) ↔ g.Alike h := by
  have heq : ∀ {q r}, g.Touches q → h.Touches r → (f q = f r ↔ q = r) :=
    fun {q r} hq hr => ⟨hinj q r (hg q hq) (hh r hr), congrArg f⟩
  cases g with
  | pair a b =>
    cases h with
    | pair c d => 
      simp only [map, alike_pair_iff]
      rw [heq, heq, heq, heq] <;> simp [Touches, ends]
    | release r => exact iff_of_false not_alike_pair_release not_alike_pair_release
  | release q =>
    cases h with
    | pair c d =>
      exact iff_of_false (fun h => not_alike_pair_release h.symm)
        fun h => not_alike_pair_release h.symm
    | release r =>
      simp only [map, alike_release_iff]
      exact heq List.mem_cons_self List.mem_cons_self

theorem matching_renames (hinj : ∀ q r, used q → used r → f q = f r → q = r) :
    Matching f used (Renames f used) := by
  constructor
  case injective => exact hinj
  case used => exact fun g g' hg => hg.1
  case touches =>
    rintro g _ ⟨_, rfl⟩ r
    rw [Touches, ends_map, List.mem_map]
    rfl
  case alike =>
    rintro g _ h _ ⟨hg, rfl⟩ ⟨hh, rfl⟩
    exact alike_map_iff hinj hg hh

end Gate

theorem forall₂_renames_iff {l l' : Layer} : List.Forall₂ (Gate.Renames f used) l l' ↔
    (∀ g ∈ l, ∀ q, g.Touches q → used q) ∧ l.map (Gate.map f) = l' := by
  change List.Forall₂ (fun g g' => (∀ q, g.Touches q → used q) ∧ g.map f = g') l l' ↔ _
  rw [List.forall₂_and_left, ← List.forall₂_map_left_iff, List.forall₂_eq_eq_eq]

theorem Circuit.match_renames_iff {c c' : Circuit} : c.Match (Gate.Renames f used) c' ↔
    (∀ q ∈ c.qubits, used q) ∧ c.map f = c' := by
  have hlayers : List.Forall₂ (Gate.Renames f used) = fun l l' =>
      (∀ g ∈ l, ∀ q, g.Touches q → used q) ∧ l.map (Gate.map f) = l' := by
    funext l l'
    exact propext forall₂_renames_iff
  cases c' with
  | mk layers =>
  rw [Match, hlayers, List.forall₂_and_left, ← List.forall₂_map_left_iff, List.forall₂_eq_eq_eq,
    map, Circuit.mk.injEq]
  apply and_congr_left
  intro _
  simp only [mem_qubits_iff_exists_layer, Layer.mem_ends]
  constructor
  · rintro h q ⟨l, hl, g, hg, hgq⟩
    exact h l hl g hg q hgq
  · intro h l hl g hg q hgq
    exact h q ⟨l, hl, g, hg, hgq⟩

theorem Step.map_eq_of_match {st st' : Step} (h : Step.Match f (Gate.Renames f used) st st') :
    st.map f = st' := by
  cases h with
  | block hl => exact congrArg block (forall₂_renames_iff.1 hl).2
  | release q => rfl

theorem QubitSet.mem_map {s : QubitSet} {r : Qubit} : r ∈ s.map f ↔ ∃ q ∈ s, f q = r := by
  rw [map, mem_ofList, List.mem_map]
  rfl

theorem QubitSet.map_mem_map_iff {s : QubitSet}
    (hinj : ∀ q r, used q → used r → f q = f r → q = r) (hs : ∀ q ∈ s, used q) {q : Qubit}
    (hq : used q) : f q ∈ s.map f ↔ q ∈ s := by
  rw [mem_map]
  constructor
  · rintro ⟨r, hr, hrq⟩
    exact hinj r q (hs r hr) hq hrq ▸ hr
  · exact fun h => ⟨q, h, rfl⟩

namespace Circuit

variable {c : Circuit} {qs : QubitSet} {t t' : TieBreak}

section

variable (hinj : ∀ q r, used q → used r → f q = f r → q = r) (hc : ∀ q ∈ c.qubits, used q)
  (hqs : ∀ q ∈ qs, used q)

include hinj hc hqs

theorem pastCone_map : (c.map f).pastCone (qs.map f) = (c.pastCone qs).map f := by
  have hcone := (Gate.matching_renames hinj).pastCone (match_renames_iff.2 ⟨hc, rfl⟩)
    fun q hq => QubitSet.map_mem_map_iff hinj hqs hq
  exact (match_renames_iff.1 hcone).2.symm

theorem rearrange_map (hfavors : ∀ q r, used q → used r → t.Favors q r → t'.Favors (f q) (f r)) :
    (c.map f).rearrange (qs.map f) t' = (c.rearrange qs t).map (Schedule.map f) := by
  obtain ⟨s, s', hs, hs', hsteps⟩ := (Gate.matching_renames hinj).rearrange hfavors
    (match_renames_iff.2 ⟨hc, rfl⟩) fun q hq => QubitSet.map_mem_map_iff hinj hqs hq
  have heq := List.forall₂_map_left_iff.2 (hsteps.imp fun _ _ => Step.map_eq_of_match)
  rw [List.forall₂_eq_eq_eq] at heq
  rw [hs, hs']
  cases s'
  exact congrArg (fun steps => Except.ok (Schedule.mk steps)) heq.symm

end

end Circuit

end QubitReuse
