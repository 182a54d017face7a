import QubitReuse.Proofs.Schedule.Lifetime
import QubitReuse.Proofs.Schedule.Rearrangement

namespace QubitReuse

def Step.releasesIn (qs : QubitSet) : Step → Bool
  | block _ => false
  | release q => decide (q ∈ qs)

def Schedule.freeze (s : Schedule) (qs : QubitSet) : Schedule :=
  ⟨s.steps.filter fun st => !st.releasesIn qs⟩

def Schedule.numReleasesIn (s : Schedule) (qs : QubitSet) : Nat :=
  s.steps.countP (Step.releasesIn qs)

variable {frozen qs : QubitSet} {steps : List Step} {q : Qubit}

theorem Retirement.filter_steps (r : Retirement) (h : frozen ⊆ qs) :
    (r.steps frozen).filter (fun st => !st.releasesIn qs) = r.steps qs := by
  have hblocks : ∀ st ∈ (r.cone.layers.filter (!·.isEmpty)).map Step.block,
      (!st.releasesIn qs) = true := by
    intro st hst
    obtain ⟨l, _, rfl⟩ := List.mem_map.1 hst
    rfl
  rw [steps, steps, List.filter_append, List.filter_eq_self.2 hblocks]
  congr 1
  by_cases hfrozen : r.qubit ∈ frozen
  · rw [if_pos hfrozen, if_pos (h _ hfrozen)]
    rfl
  · rw [if_neg hfrozen]
    by_cases hqs : r.qubit ∈ qs
    · simp [Step.releasesIn, hqs]
    · simp [Step.releasesIn, hqs]

namespace Circuit

theorem rearrange_freeze {c : Circuit} {t : TieBreak} {s : Schedule} (h : frozen ⊆ qs)
    (hs : c.rearrange frozen t = .ok s) : c.rearrange qs t = .ok (s.freeze qs) := by
  have ⟨rs, hrs, _, hs'⟩ := c.exists_rearrange frozen t
  cases hs.symm.trans hs'
  rw [rearrange_of_retirements hrs, Schedule.freeze, List.filter_flatMap]
  congr 3
  funext r
  exact (r.filter_steps h).symm

end Circuit

theorem isLive_filter (h : isLive steps q = true) :
    isLive (steps.filter fun st => !st.releasesIn qs) q = true := by
  obtain ⟨before, l, after, rfl, hq, hafter⟩ := isLive_iff.1 h
  have hafter' : .release q ∉ after.filter fun st => !st.releasesIn qs :=
    fun hmem => hafter (List.mem_filter.1 hmem).1
  rw [List.filter_append, List.filter_cons_of_pos rfl]
  exact isLive_iff.2 ⟨_, l, _, rfl, hq, hafter'⟩

theorem isLive_of_filter (h : isLive (steps.filter fun st => !st.releasesIn qs) q = true) :
    isLive steps q = true ∨ .release q ∈ steps.filter (Step.releasesIn qs) := by
  obtain ⟨before, l, after, hfilter, hq, hafter⟩ := isLive_iff.1 h
  obtain ⟨before', rest, rfl, _, hrest⟩ := List.filter_eq_append_iff.1 hfilter
  obtain ⟨gap, after', rfl, _, _, rfl⟩ := List.filter_eq_cons_iff.1 hrest
  by_cases hrel : .release q ∈ after'
  · right
    have hin : (Step.release q).releasesIn qs = true := by
      by_contra hout
      exact hafter (List.mem_filter.2 ⟨hrel, by simpa using hout⟩)
    exact List.mem_filter.2 ⟨by simp [hrel], hin⟩
  · exact .inl (isLive_iff.2 ⟨before' ++ gap, l, after', by simp, hq, hrel⟩)

theorem length_liveQubits_le_filter :
    (liveQubits steps).length ≤ (liveQubits (steps.filter fun st => !st.releasesIn qs)).length := by
  apply (nodup_liveQubits _).length_le_of_subset
  intro q hq
  exact mem_liveQubits.2 (isLive_filter (mem_liveQubits.1 hq))

theorem length_liveQubits_filter_le :
    (liveQubits (steps.filter fun st => !st.releasesIn qs)).length ≤
      (liveQubits steps).length + steps.countP (Step.releasesIn qs) := by
  have hsub : liveQubits (steps.filter fun st => !st.releasesIn qs) ⊆
      liveQubits steps ++ (steps.filter (Step.releasesIn qs)).flatMap Step.qubits := by
    intro q hq
    cases isLive_of_filter (mem_liveQubits.1 hq) with
    | inl hlive => exact List.mem_append_left _ (mem_liveQubits.2 hlive)
    | inr hrel =>
      exact List.mem_append_right _ (List.mem_flatMap.2 ⟨_, hrel, List.mem_cons_self⟩)
  have hlen : ((steps.filter (Step.releasesIn qs)).flatMap Step.qubits).length =
      steps.countP (Step.releasesIn qs) := by
    rw [List.length_flatMap, List.countP_eq_length_filter]
    have hone : ∀ st ∈ steps.filter (Step.releasesIn qs), st.qubits.length = 1 := by
      intro st hst
      cases st with
      | block l => cases (List.mem_filter.1 hst).2
      | release r => rfl
    rw [List.map_congr_left hone]
    simp
  rw [← hlen, ← List.length_append]
  exact (nodup_liveQubits _).length_le_of_subset hsub

namespace Schedule

variable {s : Schedule}

theorem length_liveQubits_le_peakLive {before : List Step} (h : before <+: s.steps) :
    (liveQubits before).length ≤ s.peakLive := by
  rw [List.prefix_iff_eq_take.1 h, peakLive]
  cases hmax : ((List.range (s.steps.length + 1)).map
    fun k => (liveQubits (s.steps.take k)).length).max? with
  | none => simp at hmax
  | some n =>
    apply (List.max?_eq_some_iff.1 hmax).2
    apply List.mem_map_of_mem
    exact List.mem_range.2 (Nat.lt_succ_of_le h.length_le)

theorem peakLive_le_freeze (s : Schedule) (qs : QubitSet) :
    s.peakLive ≤ (s.freeze qs).peakLive := by
  have ⟨k, hk⟩ := s.exists_peakLive
  calc
    s.peakLive = (liveQubits (s.steps.take k)).length := hk.symm
    _ ≤ (liveQubits ((s.steps.take k).filter fun st => !st.releasesIn qs)).length :=
      length_liveQubits_le_filter
    _ ≤ (s.freeze qs).peakLive :=
      length_liveQubits_le_peakLive ((List.take_prefix k s.steps).filter _)

theorem peakLive_freeze_le (s : Schedule) (qs : QubitSet) :
    (s.freeze qs).peakLive ≤ s.peakLive + s.numReleasesIn qs := by
  have ⟨k, hk⟩ := (s.freeze qs).exists_peakLive
  obtain ⟨before, after, hsteps, hbefore, _⟩ :=
    List.filter_eq_append_iff.1 (List.take_append_drop k (s.freeze qs).steps).symm
  have htake : before <+: s.steps := ⟨after, hsteps.symm⟩
  calc
    (s.freeze qs).peakLive = (liveQubits (before.filter fun st => !st.releasesIn qs)).length := by
      rw [hbefore, hk]
    _ ≤ (liveQubits before).length + before.countP (Step.releasesIn qs) :=
      length_liveQubits_filter_le
    _ ≤ s.peakLive + s.numReleasesIn qs :=
      Nat.add_le_add (length_liveQubits_le_peakLive htake) htake.sublist.countP_le

end Schedule

end QubitReuse
