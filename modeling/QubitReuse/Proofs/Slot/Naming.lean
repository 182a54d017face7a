import QubitReuse.Proofs.Slot.Refusal
import QubitReuse.Proofs.Slot.Renaming

namespace QubitReuse

variable {f : Qubit → Qubit} {steps : List Step} {q : Qubit}

namespace Step

@[simp] theorem qubits_map (f : Qubit → Qubit) (st : Step) :
    (st.map f).qubits = st.qubits.map f := by
  cases st with
  | block l => exact Layer.ends_map f l
  | release q => rfl

theorem map_eq_release_iff {st : Step} {r : Qubit} :
    st.map f = .release r ↔ ∃ q, st = .release q ∧ f q = r := by
  cases st with
  | block l => simp [map]
  | release q => simp [map]

theorem keepsLive_map {st : Step} (hq : ∀ r ∈ st.qubits, f r = f q → r = q) (live : Bool) :
    (st.map f).keepsLive (f q) live = st.keepsLive q live := by
  have hmem : f q ∈ (st.map f).qubits ↔ q ∈ st.qubits := by
    rw [qubits_map, List.mem_map]
    constructor
    · rintro ⟨r, hr, hrq⟩
      exact hq r hr hrq ▸ hr
    · exact fun h => ⟨q, h, rfl⟩
  cases st with
  | block l => exact congrArg (live || ·) (decide_eq_decide.2 hmem)
  | release r =>
    simp only [qubits, map, List.mem_singleton] at hmem
    exact congrArg (live && ·) (decide_eq_decide.2 (not_congr hmem))

end Step

theorem isLive_map (hq : ∀ st ∈ steps, ∀ r ∈ st.qubits, f r = f q → r = q) :
    isLive (steps.map (Step.map f)) (f q) = isLive steps q := by
  induction steps using List.reverseRecOn with
  | nil => rfl
  | append_singleton steps st ih =>
    rw [List.forall_mem_append, List.forall_mem_singleton] at hq
    rw [List.map_append, List.map_singleton, isLive_append_singleton, isLive_append_singleton,
      ih hq.1, Step.keepsLive_map hq.2]

theorem exists_release_of_map {before' after' : List Step} {r : Qubit}
    (h : steps.map (Step.map f) = before' ++ .release r :: after') :
    ∃ before q after, steps = before ++ .release q :: after ∧
      before.map (Step.map f) = before' ∧ f q = r := by
  obtain ⟨before, rest, rfl, hbefore, hrest⟩ := List.map_eq_append_iff.1 h
  obtain ⟨st, after, rfl, hst, -⟩ := List.map_eq_cons_iff.1 hrest
  obtain ⟨q, rfl, hq⟩ := Step.map_eq_release_iff.1 hst
  exact ⟨before, q, after, rfl, hbefore, hq⟩

namespace Schedule

variable {s : Schedule} {before after : List Step}

theorem mem_qubits_map {r : Qubit} : r ∈ (s.map f).qubits ↔ ∃ q ∈ s.qubits, f q = r := by
  simp only [mem_qubits, map, List.mem_map, exists_exists_and_eq_and, Step.qubits_map]
  constructor
  · rintro ⟨st, hst, q, hq, rfl⟩
    exact ⟨q, ⟨st, hst, hq⟩, rfl⟩
  · rintro ⟨q, ⟨st, hst, hq⟩, rfl⟩
    exact ⟨st, hst, q, hq, rfl⟩

section

variable (hinj : ∀ q ∈ s.qubits, ∀ r ∈ s.qubits, f q = f r → q = r)

include hinj

theorem usedSinceRelease_map_iff (hs : s.steps = before ++ .release q :: after) :
    UsedSinceRelease (before.map (Step.map f)) (f q) ↔ UsedSinceRelease before q := by
  have hq : q ∈ s.qubits := mem_qubits.2 ⟨.release q, by simp [hs], List.mem_cons_self⟩
  have hbefore : ∀ st ∈ before, ∀ r ∈ st.qubits, f r = f q → r = q := by
    intro st hst r hr
    exact hinj r (mem_qubits.2 ⟨st, hs ▸ List.mem_append_left _ hst, hr⟩) q hq
  rw [← isLive_iff_usedSinceRelease, isLive_map hbefore, isLive_iff_usedSinceRelease]

theorem ReleasesLive.map (h : s.ReleasesLive) : (s.map f).ReleasesLive := by
  rw [releasesLive_iff] at h ⊢
  intro before' r after' hs'
  obtain ⟨before, q, after, hs, rfl, rfl⟩ := exists_release_of_map hs'
  exact (usedSinceRelease_map_iff hinj hs).2 (h before q after hs)

theorem FirstUnused.map (h : s.FirstUnused before q) :
    (s.map f).FirstUnused (before.map (Step.map f)) (f q) := by
  obtain ⟨after, hs⟩ := h.next
  constructor
  case next => exact ⟨after.map (Step.map f), by simp [Schedule.map, hs, Step.map]⟩
  case unused => exact (usedSinceRelease_map_iff hinj hs).not.2 h.unused
  case earlier =>
    intro before' r after' hbefore
    obtain ⟨before₁, p, after₁, rfl, rfl, rfl⟩ := exists_release_of_map hbefore
    rw [List.append_assoc, List.cons_append] at hs
    exact (usedSinceRelease_map_iff hinj hs).2 (h.earlier before₁ p after₁ rfl)

end

theorem assignSlots_renamed (hinj : ∀ q ∈ s.qubits, ∀ r ∈ s.qubits, f q = f r → q = r)
    (hid : ∀ q ∈ s.qubits, q.index < UInt32.size - 1 ∧ (f q).index < UInt32.size - 1) :
    (∃ out, s.assignSlots = .ok out ∧ (s.map f).assignSlots = .ok out) ∨
      ∃ q ∈ s.qubits, s.assignSlots = .error (.unheldRelease q) ∧
        (s.map f).assignSlots = .error (.unheldRelease (f q)) := by
  have hbound : s.bound < UInt32.size := bound_lt fun q hq => (hid q hq).1
  have hbound_map : (s.map f).bound < UInt32.size := by
    apply bound_lt
    intro r hr
    obtain ⟨q, hq, rfl⟩ := mem_qubits_map.1 hr
    exact (hid q hq).2
  rcases s.releasesLive_or_firstUnused with hlive | ⟨before, q, hfirst⟩
  · obtain ⟨out, hout⟩ := exists_assignSlots hbound hlive
    obtain ⟨out', hout'⟩ := exists_assignSlots hbound_map (hlive.map hinj)
    have hsame := assignSlots_map (fun q r hq hr => hinj q hq r hr) hout hout'
    exact .inl ⟨out, hout, hsame ▸ hout'⟩
  · obtain ⟨after, hs⟩ := hfirst.next
    have hq : q ∈ s.qubits := mem_qubits.2 ⟨.release q, by simp [hs], List.mem_cons_self⟩
    exact .inr ⟨q, hq, hfirst.assignSlots_eq hbound, (hfirst.map hinj).assignSlots_eq hbound_map⟩

/-- The order of the names is turned around, of a schedule that reuses a slot and of one that
releases a qubit twice. -/
theorem assignSlots_renamed_turned :
    (∃ out, assignSlots ⟨[.block [.pair ⟨0⟩ ⟨7⟩], .release ⟨0⟩, .block [.pair ⟨7⟩ ⟨3⟩]]⟩ = .ok out ∧
      assignSlots ⟨[.block [.pair ⟨9⟩ ⟨2⟩], .release ⟨9⟩, .block [.pair ⟨2⟩ ⟨6⟩]]⟩ = .ok out ∧
      out.width = 2) ∧
    assignSlots ⟨[.block [.pair ⟨0⟩ ⟨7⟩], .release ⟨7⟩, .release ⟨7⟩]⟩ =
      .error (.unheldRelease ⟨7⟩) ∧
    assignSlots ⟨[.block [.pair ⟨9⟩ ⟨2⟩], .release ⟨2⟩, .release ⟨2⟩]⟩ =
      .error (.unheldRelease ⟨2⟩) := by
  constructor
  · have hinj : ∀ q ∈ (qubits ⟨[.block [.pair ⟨0⟩ ⟨7⟩], .release ⟨0⟩,
        .block [.pair ⟨7⟩ ⟨3⟩]]⟩).toList, ∀ r ∈ (qubits ⟨[.block [.pair ⟨0⟩ ⟨7⟩], .release ⟨0⟩,
        .block [.pair ⟨7⟩ ⟨3⟩]]⟩).toList, Qubit.mk (9 - q.id) = ⟨9 - r.id⟩ → q = r := by
      decide
    rcases assignSlots_renamed hinj (by decide) with ⟨out, hout, hout'⟩ | ⟨q, -, hfail, -⟩
    · cases hout
      exact ⟨_, rfl, hout', rfl⟩
    · cases hfail
  · have hinj : ∀ q ∈ (qubits ⟨[.block [.pair ⟨0⟩ ⟨7⟩], .release ⟨7⟩, .release ⟨7⟩]⟩).toList,
        ∀ r ∈ (qubits ⟨[.block [.pair ⟨0⟩ ⟨7⟩], .release ⟨7⟩, .release ⟨7⟩]⟩).toList,
        Qubit.mk (9 - q.id) = ⟨9 - r.id⟩ → q = r := by
      decide
    rcases assignSlots_renamed hinj (by decide) with ⟨out, hout, -⟩ | ⟨q, -, hfail, hfail'⟩
    · cases hout
    · cases hfail
      exact ⟨rfl, hfail'⟩

end Schedule

end QubitReuse
