import QubitReuse.Proofs.Cone.Closure
import QubitReuse.Schedule.Retirement

namespace QubitReuse

namespace TieBreak

variable {t : TieBreak} {width : Qubit → Nat}

theorem foldl_select_some_ne_none {qs : List Qubit} {b : Qubit × Nat} :
    qs.foldl (t.select width) (some b) ≠ none := by
  induction qs generalizing b with
  | nil => exact nofun
  | cons q qs ih =>
    rw [List.foldl_cons, select]
    split
    · exact ih
    · exact ih

theorem mem_of_foldl_select {qs : List Qubit} {best : Option (Qubit × Nat)} {q : Qubit} {w : Nat}
    (h : qs.foldl (t.select width) best = some (q, w)) : q ∈ qs ∨ best = some (q, w) := by
  induction qs generalizing best with
  | nil => exact .inr h
  | cons p qs ih =>
    cases ih h with
    | inl hq => exact .inl (List.mem_cons_of_mem p hq)
    | inr hbest =>
      cases best with
      | none =>
        cases hbest
        exact .inl List.mem_cons_self
      | some b =>
        rw [select] at hbest
        split at hbest
        · cases hbest
          exact .inl List.mem_cons_self
        · exact .inr hbest

end TieBreak

namespace Circuit

theorem mem_qubits_of_narrowest {c : Circuit} {t : TieBreak} {q : Qubit} {w : Nat}
    (h : c.narrowest t = some (q, w)) : q ∈ c.qubits := by
  cases TieBreak.mem_of_foldl_select h with
  | inl hq => exact hq
  | inr hq => cases hq

theorem gates_eq_nil_of_narrowest {c : Circuit} {t : TieBreak} (h : c.narrowest t = none) :
    c.gates = [] := by
  apply List.eq_nil_iff_forall_not_mem.2
  intro g hg
  have ⟨q, hq⟩ := g.exists_touches
  have hmem : q ∈ c.qubits.toList := mem_qubits.2 ⟨g, hg, hq⟩
  rw [narrowest] at h
  cases hqs : c.qubits.toList with
  | nil =>
    rw [hqs] at hmem
    cases hmem
  | cons p qs =>
    rw [hqs, List.foldl_cons] at h
    exact TieBreak.foldl_select_some_ne_none h

theorem retirements_of_none {c : Circuit} {t : TieBreak} (hn : c.narrowest t = none) :
    c.retirements t = .ok [] := by
  rw [retirements]
  split
  · rfl
  · rename_i h
    cases h.symm.trans hn
  · rename_i h
    cases h.symm.trans hn

theorem retirements_of_some {c rest : Circuit} {t : TieBreak} {q : Qubit} {n : Nat}
    (hn : c.narrowest t = some (q, n + 1))
    (hs : c.subtract (c.pastCone (.single q)) = .ok rest) :
    c.retirements t = (rest.retirements t).map (⟨q, c.pastCone (.single q)⟩ :: ·) := by
  rw [retirements]
  split
  · rename_i h
    cases h.symm.trans hn
  · rename_i h
    cases h.symm.trans hn
  · rename_i h
    cases h.symm.trans hn
    dsimp only
    split
    · rename_i h'
      cases h'.symm.trans hs
    · rename_i h'
      cases h'.symm.trans hs
      rfl

theorem rounds_induct (t : TieBreak) {P : Circuit → Prop}
    (idle : ∀ c, c.narrowest t = none → P c)
    (retire : ∀ c rest q n, c.narrowest t = some (q, n + 1) →
      c.subtract (c.pastCone (.single q)) = .ok rest → P rest → P c) (c : Circuit) : P c := by
  cases hn : c.narrowest t with
  | none => exact idle c hn
  | some best =>
    have hpos := ancestorWidth_pos (mem_qubits_of_narrowest hn) (QubitSet.mem_single.2 rfl)
    have hs := c.subtract_pastCone (.single best.1)
    have ⟨n, hw⟩ := Nat.exists_eq_add_of_lt (width_of_narrowest hn ▸ hpos)
    refine retire c _ best.1 n ?_ hs (rounds_induct t idle retire _)
    rw [hn, ← Nat.zero_add n, ← hw]
termination_by c.numGates
decreasing_by exact numGates_subtract_pastCone_lt hpos hs

/-- Retiring these qubits, one after the other, uses the circuit up. -/
inductive Exhausts : Circuit → List Retirement → Prop
  | idle {c : Circuit} : c.gates = [] → Exhausts c []
  | retire {c rest : Circuit} {q : Qubit} {rs : List Retirement} : q ∈ c.qubits →
      c.subtract (c.pastCone (.single q)) = .ok rest → Exhausts rest rs →
      Exhausts c (⟨q, c.pastCone (.single q)⟩ :: rs)

theorem exists_exhausts (t : TieBreak) (c : Circuit) :
    ∃ rs, c.retirements t = .ok rs ∧ c.Exhausts rs := by
  induction c using rounds_induct t with
  | idle c hn => exact ⟨[], retirements_of_none hn, .idle (gates_eq_nil_of_narrowest hn)⟩
  | retire c rest q n hn hs ih =>
    have ⟨rs, hrs, hex⟩ := ih
    refine ⟨_, ?_, .retire (mem_qubits_of_narrowest hn) hs hex⟩
    rw [retirements_of_some hn hs, hrs]
    rfl

theorem mem_gates_of_subtract {c rest : Circuit} {support : QubitSet} {g : Gate}
    (h : c.subtract (c.pastCone support) = .ok rest) (hg : g ∈ rest.gates) : g ∈ c.gates := by
  have ⟨i, hi⟩ := mem_gates_iff.1 hg
  exact mem_gates_iff.2 ⟨i, (splits_pastCone h).second_sublist.subset hi⟩

theorem mem_qubits_of_subtract {c rest : Circuit} {q p : Qubit}
    (h : c.subtract (c.pastCone (.single q)) = .ok rest) (hp : p ∈ rest.qubits) :
    p ∈ c.qubits ∧ p ≠ q := by
  have ⟨g, hg, ht⟩ := mem_qubits.1 hp
  refine ⟨mem_qubits.2 ⟨g, mem_gates_of_subtract h hg, ht⟩, fun hpq => ?_⟩
  exact not_touches_of_mem_subtract h hg (QubitSet.mem_single.2 hpq) ht

theorem Exhausts.length_le {c : Circuit} {rs : List Retirement} (h : c.Exhausts rs) :
    rs.length ≤ c.qubits.size := by
  induction h with
  | idle => exact Nat.zero_le _
  | retire hq hs _ ih =>
    exact Nat.le_trans (Nat.succ_le_succ ih) (QubitSet.size_lt_size
      (fun p hp => (mem_qubits_of_subtract hs hp).1) hq
      fun hq' => (mem_qubits_of_subtract hs hq').2 rfl)

def retiredGates (rs : List Retirement) : List (Nat × Gate) := rs.flatMap (·.cone.layeredGates)

theorem Exhausts.subset {c : Circuit} {rs : List Retirement} (h : c.Exhausts rs) :
    retiredGates rs ⊆ c.layeredGates := by
  induction h with
  | idle => exact List.nil_subset _
  | retire _ hs _ ih =>
    have hsplit := splits_pastCone hs
    exact List.append_subset.2 ⟨hsplit.first_sublist.subset,
      List.Subset.trans ih hsplit.second_sublist.subset⟩

theorem Exhausts.perm {c : Circuit} {rs : List Retirement} (h : c.Exhausts rs) :
    ((retiredGates rs).map unorientedAt).Perm (c.layeredGates.map unorientedAt) := by
  induction h with
  | idle hc =>
    rw [← map_snd_layeredGates, List.map_eq_nil_iff] at hc
    rw [hc]
    exact .refl _
  | retire _ hs _ ih =>
    have hsplit := (splits_pastCone hs).perm
    rw [List.map_append] at hsplit
    rw [retiredGates, List.flatMap_cons, List.map_append]
    exact (ih.append_left _).trans hsplit

theorem Exhausts.pairwise {c : Circuit} {rs : List Retirement} (h : c.Exhausts rs) :
    (retiredGates rs).Pairwise InLayerOrder := by
  induction h with
  | idle => exact .nil
  | retire _ hs hex ih =>
    refine List.pairwise_append.2 ⟨?_, ih, ?_⟩
    · exact (pairwise_numbered 0 _).imp inLayerOrder_of_le
    · intro x hx y hy
      exact (splits_pastCone hs).inLayerOrder x hx y (hex.subset hy)

end Circuit

end QubitReuse
