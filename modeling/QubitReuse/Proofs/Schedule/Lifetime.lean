import Mathlib.Data.List.Forall2
import Mathlib.Data.List.Induction
import Mathlib.Data.List.Nodup
import QubitReuse.Proofs.Slot.Placing

namespace QubitReuse

universe u

variable {steps : List Step} {q : Qubit}

theorem isLive_append_singleton (steps : List Step) (st : Step) (q : Qubit) :
    isLive (steps ++ [st]) q = st.keepsLive q (isLive steps q) := by
  rw [isLive, List.foldl_append]
  rfl

theorem isLive_iff : isLive steps q = true ↔
    ∃ before l after, steps = before ++ .block l :: after ∧ q ∈ Layer.ends l ∧
      .release q ∉ after := by
  constructor
  · intro h
    induction steps using List.reverseRecOn with
    | nil => cases h
    | append_singleton steps st ih =>
      rw [isLive_append_singleton] at h
      cases st with
      | block l =>
        by_cases hq : q ∈ Layer.ends l
        · exact ⟨steps, l, [], rfl, hq, List.not_mem_nil⟩
        · obtain ⟨before, l', after, rfl, hq', hafter⟩ := ih (by simpa [Step.keepsLive, hq] using h)
          exact ⟨before, l', after ++ [.block l], by simp, hq', by simpa using hafter⟩
      | release r =>
        obtain ⟨hlive, hne⟩ : isLive steps q = true ∧ q ≠ r := by simpa [Step.keepsLive] using h
        obtain ⟨before, l, after, rfl, hq, hafter⟩ := ih hlive
        exact ⟨before, l, after ++ [.release r], by simp, hq, by simp [hafter, hne]⟩
  · rintro ⟨before, l, after, rfl, hq, hafter⟩
    rw [isLive, List.foldl_append]
    exact foldl_keepsLive (.inr ⟨l, List.mem_cons_self, hq⟩) (by simpa using hafter)

theorem mem_liveQubits : q ∈ liveQubits steps ↔ isLive steps q = true := by
  rw [liveQubits, List.mem_filter, and_iff_right_iff_imp, ← QubitSet.mem_def, Schedule.mem_qubits]
  intro h
  obtain ⟨before, l, after, rfl, hq, _⟩ := isLive_iff.1 h
  exact ⟨.block l, by simp, hq⟩

theorem nodup_liveQubits (steps : List Step) : (liveQubits steps).Nodup :=
  (Schedule.qubits ⟨steps⟩).nodup.filter _

theorem length_liveQubits_le (s : Schedule) (k : Nat) :
    (liveQubits (s.steps.take k)).length ≤ s.qubits.size := by
  apply (nodup_liveQubits _).length_le_of_subset
  intro q hq
  have ⟨st, hst, hqst⟩ := Schedule.mem_qubits.1 (List.mem_filter.1 hq).1
  exact Schedule.mem_qubits.2 ⟨st, List.mem_of_mem_take hst, hqst⟩

theorem length_liveQubits_le_slots {α : Type u} {slotAt : Qubit → α} {slots : List α}
    (hown : ∀ q ∈ liveQubits steps, ∀ r ∈ liveQubits steps, slotAt q = slotAt r → q = r)
    (hslots : ∀ q ∈ liveQubits steps, slotAt q ∈ slots) :
    (liveQubits steps).length ≤ slots.length := by
  have hnodup := List.Nodup.map_on hown (nodup_liveQubits steps)
  have hsub : (liveQubits steps).map slotAt ⊆ slots := by
    intro s hs
    obtain ⟨q, hq, rfl⟩ := List.mem_map.1 hs
    exact hslots q hq
  simpa using hnodup.length_le_of_subset hsub

theorem Schedule.exists_peakLive (s : Schedule) :
    ∃ k, (liveQubits (s.steps.take k)).length = s.peakLive := by
  rw [peakLive]
  cases h : ((List.range (s.steps.length + 1)).map
    fun k => (liveQubits (s.steps.take k)).length).max? with
  | none => simp at h
  | some n =>
    have ⟨k, _, hk⟩ := List.mem_map.1 (List.max?_mem h)
    exact ⟨k, hk⟩

def Step.SameLives (st st' : Step) : Prop := ∀ q live, st'.keepsLive q live = st.keepsLive q live

theorem isLive_of_sameLives {steps' : List Step} (h : List.Forall₂ Step.SameLives steps steps')
    (q : Qubit) : isLive steps' q = isLive steps q := by
  rw [isLive, isLive]
  generalize false = live
  induction h generalizing live with
  | nil => rfl
  | cons hst _ ih => rw [List.foldl_cons, List.foldl_cons, hst q live, ih]

theorem length_liveQubits_of_sameLives {steps' : List Step}
    (h : List.Forall₂ Step.SameLives steps steps') :
    (liveQubits steps').length = (liveQubits steps).length := by
  apply List.Perm.length_eq
  apply (List.perm_ext_iff_of_nodup (nodup_liveQubits _) (nodup_liveQubits _)).2
  intro q
  rw [mem_liveQubits, mem_liveQubits, isLive_of_sameLives h]

theorem Schedule.peakLive_of_sameLives {s s' : Schedule}
    (h : List.Forall₂ Step.SameLives s.steps s'.steps) : s'.peakLive = s.peakLive := by
  have hlive : ∀ k, (liveQubits (s'.steps.take k)).length = (liveQubits (s.steps.take k)).length :=
    fun k => length_liveQubits_of_sameLives (List.forall₂_take k h)
  rw [peakLive, peakLive, h.length_eq]
  simp only [hlive]

end QubitReuse
