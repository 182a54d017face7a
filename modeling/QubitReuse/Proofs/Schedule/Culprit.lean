import QubitReuse.Proofs.Schedule.Cutting
import QubitReuse.Proofs.Traversal

namespace QubitReuse

theorem QubitSet.isLeast_iff {s : QubitSet} {P : Qubit → Prop} {q : Qubit} :
    IsLeast {p | p ∈ s ∧ P p} q ↔
      ∃ before after, s.toList = before ++ q :: after ∧ (∀ p ∈ before, ¬ P p) ∧ P q := by
  have hasc := s.ascending
  constructor
  · rintro ⟨⟨hq, hP⟩, hleast⟩
    obtain ⟨before, after, hs⟩ := List.append_of_mem hq
    refine ⟨before, after, hs, fun p hp hPp => ?_, hP⟩
    rw [hs, List.pairwise_append] at hasc
    have hlt : p < q := hasc.2.2 p hp q List.mem_cons_self
    have hle : q ≤ p := hleast ⟨mem_def.2 (hs ▸ List.mem_append_left _ hp), hPp⟩
    exact Nat.not_lt_of_le hle hlt
  · rintro ⟨before, after, hs, hbefore, hP⟩
    rw [hs, List.pairwise_append, List.pairwise_cons] at hasc
    refine ⟨⟨mem_def.2 (by simp [hs]), hP⟩, ?_⟩
    rintro p ⟨hp, hPp⟩
    rw [mem_def, hs, List.mem_append, List.mem_cons] at hp
    rcases hp with hp | rfl | hp
    · exact absurd hPp (hbefore p hp)
    · exact Nat.le_refl _
    · exact Nat.le_of_lt (hasc.2.1.1 p hp)

namespace Schedule

variable {s : Schedule} {c : Circuit} {q : Qubit} {e : CompressionError}

theorem mapError_matchStrands_eq_ok_iff :
    (matchStrands (c.strands q) (wire q s.gates)).mapError (CompressionError.orderViolation q) =
      .ok () ↔ s.FollowsOn c q :=
  mapError_eq_ok_iff.trans matchStrands_eq_ok_iff_followsOn

theorem matchStrands_forM_eq_ok_iff :
    (c.qubits.toList.forM fun q =>
      (matchStrands (c.strands q) (wire q s.gates)).mapError
        (CompressionError.orderViolation q)) = .ok () ↔ ∀ q, ¬ s.Departs c q := by
  rw [forM_eq_ok_iff]
  simp only [mapError_matchStrands_eq_ok_iff, Departs, not_and, not_not]
  rfl

theorem matchStrands_forM_eq_error_iff :
    (c.qubits.toList.forM fun q =>
      (matchStrands (c.strands q) (wire q s.gates)).mapError
        (CompressionError.orderViolation q)) = .error e ↔
      ∃ q fault, IsLeast {p | s.Departs c p} q ∧
        matchStrands (c.strands q) (wire q s.gates) = .error fault ∧ e = .orderViolation q fault := by
  rw [forM_eq_error_iff]
  simp only [mapError_matchStrands_eq_ok_iff, mapError_eq_error_iff]
  constructor
  · rintro ⟨before, q, after, hs, hbefore, fault, hfault, rfl⟩
    refine ⟨q, fault, QubitSet.isLeast_iff.2 ⟨before, after, hs, ?_, ?_⟩, hfault, rfl⟩
    · exact fun p hp hnot => hnot (hbefore p hp)
    · intro hfollows
      rw [matchStrands_eq_ok_iff_followsOn.2 hfollows] at hfault
      cases hfault
  · rintro ⟨q, fault, hleast, hfault, rfl⟩
    obtain ⟨before, after, hs, hbefore, -⟩ := QubitSet.isLeast_iff.1 hleast
    exact ⟨before, q, after, hs, fun p hp => not_not.1 (hbefore p hp), fault, hfault, rfl⟩

theorem foreign_iff : s.Foreign c q ↔
    q ∈ QubitSet.ofList (s.gates.flatMap Gate.ends) ∧ q ∉ c.qubits := by
  rw [QubitSet.mem_ofList, List.mem_flatMap]
  rfl

theorem find?_foreign_eq_some_iff :
    (QubitSet.ofList (s.gates.flatMap Gate.ends)).toList.find? (fun p => decide (p ∉ c.qubits)) =
      some q ↔ IsLeast {p | s.Foreign c p} q := by
  simp only [foreign_iff]
  rw [QubitSet.isLeast_iff, List.find?_eq_some_iff_append]
  simp only [decide_eq_true_eq, Bool.not_eq_true', decide_eq_false_iff_not]
  constructor
  · rintro ⟨hq, before, after, hs, hbefore⟩
    exact ⟨before, after, hs, hbefore, hq⟩
  · rintro ⟨before, after, hs, hbefore, hq⟩
    exact ⟨hq, before, after, hs, hbefore⟩

theorem find?_foreign_eq_none_iff :
    (QubitSet.ofList (s.gates.flatMap Gate.ends)).toList.find? (fun p => decide (p ∉ c.qubits)) =
      none ↔ ∀ p, ¬ s.Foreign c p := by
  simp only [foreign_iff, List.find?_eq_none, decide_eq_true_eq, not_and]
  rfl

section

variable {earlier steps : List Step} {st : Step} {position : Nat}
  {released : List (Qubit × Nat)}

theorem findSome?_lookup (released : List (Qubit × Nat)) (qs : List Qubit) :
    (qs.findSome? fun q => (released.lookup q).map fun since => (q, since)).map Prod.fst =
      qs.find? fun q => (released.lookup q).isSome := by
  induction qs with
  | nil => rfl
  | cons q qs ih =>
    rw [List.findSome?_cons, List.find?_cons]
    cases h : released.lookup q with
    | none => simpa using ih
    | some since => rfl

theorem checkReleases_of_reused (position : Nat) (steps : List Step)
    (hreleased : ∀ p, (released.lookup p).isSome = decide (Step.release p ∈ earlier))
    (h : st.reused? earlier = some q) :
    ∃ fault, checkReleases position released (st :: steps) = .error (.orderViolation q fault) := by
  simp only [Step.reused?, ← hreleased] at h
  cases st with
  | release p =>
    obtain ⟨hq, hp⟩ : (released.lookup p).isSome = true ∧ p = q := by
      simpa [Step.qubits, List.find?_singleton] using h
    rw [checkReleases, if_pos hq, hp]
    exact ⟨_, rfl⟩
  | block l =>
    rw [Step.qubits, ← findSome?_lookup] at h
    obtain ⟨⟨p, since⟩, hsome, rfl⟩ := Option.map_eq_some_iff.1 h
    rw [checkReleases, hsome]
    exact ⟨_, rfl⟩

theorem checkReleases_of_rests (position : Nat)
    (hreleased : ∀ p, (released.lookup p).isSome = decide (Step.release p ∈ earlier))
    (h : st.reused? earlier = none) :
    ∃ released',
      (∀ p, (released'.lookup p).isSome = decide (Step.release p ∈ earlier ++ [st])) ∧
      ∀ steps, checkReleases position released (st :: steps) =
        checkReleases (position + 1) released' steps := by
  simp only [Step.reused?, ← hreleased] at h
  cases st with
  | release q =>
    refine ⟨(q, position) :: released, fun p => ?_, fun steps => ?_⟩
    · rw [List.lookup_cons]
      by_cases hp : p = q
      · simp [hp]
      · simp [hp, beq_eq_false_iff_ne.2 hp, hreleased]
    · have hq : ¬ (released.lookup q).isSome = true := by
        simpa [Step.qubits, List.find?_singleton] using h
      rw [checkReleases, if_neg hq]
  | block l =>
    refine ⟨released, fun p => by simp [hreleased], fun steps => ?_⟩
    rw [Step.qubits, ← findSome?_lookup, Option.map_eq_none_iff] at h
    rw [checkReleases, h]

theorem restsAfterRelease_append_singleton_iff : RestsAfterRelease ⟨earlier ++ [st]⟩ ↔
    RestsAfterRelease ⟨earlier⟩ ∧ st.reused? earlier = none := by
  rw [RestsAfterRelease, List.pairwise_append, Step.reused?, List.find?_eq_none]
  simp only [List.pairwise_singleton, true_and, List.mem_singleton, forall_eq, decide_eq_true_eq]
  apply and_congr_right
  intro _
  constructor
  · exact fun h q hq hrel => h _ hrel q rfl hq
  · rintro h _ hrel q rfl hq
    exact h q hq hrel

theorem checkReleases_eq_error_iff
    (hreleased : ∀ p, (released.lookup p).isSome = decide (Step.release p ∈ earlier))
    (hrest : RestsAfterRelease ⟨earlier⟩) :
    (∃ fault, checkReleases position released steps = .error (.orderViolation q fault)) ↔
      ∃ before st after, steps = before ++ st :: after ∧ RestsAfterRelease ⟨earlier ++ before⟩ ∧
        st.reused? (earlier ++ before) = some q := by
  induction steps generalizing earlier position released with
  | nil => simp [checkReleases]
  | cons st steps ih =>
    rw [exists_cons_eq_append_cons_iff, List.append_nil]
    cases hst : st.reused? earlier with
    | some p =>
      obtain ⟨fault, hfault⟩ := checkReleases_of_reused position steps hreleased hst
      -- A later step cannot be the first: `st` breaks the rest before it.
      have hlater : ∀ before, ¬ RestsAfterRelease ⟨earlier ++ st :: before⟩ := by
        intro before hbefore
        rw [← List.singleton_append, ← List.append_assoc] at hbefore
        have hnone := restsAfterRelease_append_singleton_iff.1
          (List.Pairwise.sublist (List.sublist_append_left _ _) hbefore)
        rw [hst] at hnone
        cases hnone.2
      simp [hfault, hrest, hlater]
    | none =>
      obtain ⟨released', hreleased', hsteps⟩ := checkReleases_of_rests position hreleased hst
      rw [hsteps, ih hreleased' (restsAfterRelease_append_singleton_iff.2 ⟨hrest, hst⟩)]
      simp

theorem exists_of_checkReleases_eq_error (h : checkReleases position released steps = .error e) :
    ∃ q fault, e = .orderViolation q fault := by
  induction steps generalizing position released with
  | nil => cases h
  | cons st steps ih =>
    cases st with
    | release q =>
      rw [checkReleases] at h
      split at h
      · cases h
        exact ⟨_, _, rfl⟩
      · exact ih h
    | block l =>
      rw [checkReleases] at h
      split at h
      · cases h
        exact ⟨_, _, rfl⟩
      · exact ih h

end

theorem checkReleases_eq_error_iff_firstReuses :
    (∃ fault, checkReleases 0 [] s.steps = .error (.orderViolation q fault)) ↔
      s.FirstReuses q := by
  have hnone : ∀ p, (List.lookup p ([] : List (Qubit × Nat))).isSome =
      decide (Step.release p ∈ ([] : List Step)) :=
    fun _ => rfl
  exact checkReleases_eq_error_iff hnone .nil

theorem checkOrder_eq_error_iff : s.checkOrder c = .error e ↔
    (∃ q fault, IsLeast {p | s.Departs c p} q ∧
      matchStrands (c.strands q) (wire q s.gates) = .error fault ∧ e = .orderViolation q fault) ∨
    (∀ p, ¬ s.Departs c p) ∧
      ((∃ q, IsLeast {p | s.Foreign c p} q ∧
          e = .orderViolation q (.foreign (wire q s.gates).length)) ∨
        (∀ p, ¬ s.Foreign c p) ∧ checkReleases 0 [] s.steps = .error e) := by
  rw [checkOrder, bind_eq_error_iff, matchStrands_forM_eq_error_iff]
  refine or_congr_right (Unique.exists_iff.trans (and_congr matchStrands_forM_eq_ok_iff ?_))
  rw [← find?_foreign_eq_none_iff]
  simp only [← find?_foreign_eq_some_iff]
  cases hforeign : (QubitSet.ofList (s.gates.flatMap Gate.ends)).toList.find?
      fun p => decide (p ∉ c.qubits) with
  | some q => simp [eq_comm]
  | none => simp [bind_eq_error_iff, pure, Except.pure]

theorem checkOrder_names_culprit (s : Schedule) (c : Circuit) :
    (∀ e, s.checkOrder c = .error e → ∃ q fault, e = .orderViolation q fault) ∧
    ∀ q, (∃ fault, s.checkOrder c = .error (.orderViolation q fault)) ↔ s.Culprit c q := by
  constructor
  · intro e he
    rcases checkOrder_eq_error_iff.1 he with
      ⟨q, fault, -, -, rfl⟩ | ⟨-, ⟨q, -, rfl⟩ | ⟨-, hreleases⟩⟩
    · exact ⟨q, fault, rfl⟩
    · exact ⟨q, _, rfl⟩
    · exact exists_of_checkReleases_eq_error hreleases
  · intro q
    constructor
    · rintro ⟨fault, he⟩
      rcases checkOrder_eq_error_iff.1 he with
        ⟨q, fault, hleast, -, heq⟩ | ⟨hwires, ⟨q, hleast, heq⟩ | ⟨hforeign, hreleases⟩⟩
      · cases heq
        exact .departs hleast
      · cases heq
        exact .foreign hwires hleast
      · exact .reused hwires hforeign (checkReleases_eq_error_iff_firstReuses.1 ⟨fault, hreleases⟩)
    · intro h
      cases h with
      | departs hleast =>
        have hdeparts : ¬ s.FollowsOn c q := hleast.1.2
        rw [← matchStrands_eq_ok_iff_followsOn] at hdeparts
        cases hfault : matchStrands (c.strands q) (wire q s.gates) with
        | ok u => exact absurd hfault hdeparts
        | error fault =>
          exact ⟨fault, checkOrder_eq_error_iff.2 (.inl ⟨q, fault, hleast, hfault, rfl⟩)⟩
      | foreign hwires hleast =>
        exact ⟨_, checkOrder_eq_error_iff.2 (.inr ⟨hwires, .inl ⟨q, hleast, rfl⟩⟩)⟩
      | reused hwires hforeign hreuses =>
        obtain ⟨fault, hfault⟩ := checkReleases_eq_error_iff_firstReuses.2 hreuses
        exact ⟨fault, checkOrder_eq_error_iff.2 (.inr ⟨hwires, .inr ⟨hforeign, hfault⟩⟩)⟩

/-- Two layers are exchanged, a gate is added, and two released qubits are used, of which the larger
one is met first. -/
theorem checkOrder_names_culprit_each :
    Culprit ⟨[.block [.pair ⟨1⟩ ⟨2⟩], .block [.pair ⟨0⟩ ⟨1⟩]]⟩
      ⟨[[.pair ⟨0⟩ ⟨1⟩], [.pair ⟨1⟩ ⟨2⟩]]⟩ ⟨1⟩ ∧
    Culprit ⟨[.block [.pair ⟨0⟩ ⟨1⟩, .pair ⟨5⟩ ⟨4⟩]]⟩ ⟨[[.pair ⟨1⟩ ⟨0⟩]]⟩ ⟨4⟩ ∧
    Culprit ⟨[.block [.pair ⟨0⟩ ⟨1⟩], .release ⟨1⟩, .release ⟨2⟩, .block [.pair ⟨2⟩ ⟨1⟩]]⟩
      ⟨[[.pair ⟨0⟩ ⟨1⟩], [.pair ⟨1⟩ ⟨2⟩]]⟩ ⟨2⟩ := by
  refine ⟨?_, ?_, ?_⟩
  · exact ((checkOrder_names_culprit _ _).2 ⟨1⟩).1 ⟨.scattered 0, rfl⟩
  · exact ((checkOrder_names_culprit _ _).2 ⟨4⟩).1 ⟨.foreign 1, rfl⟩
  · exact ((checkOrder_names_culprit _ _).2 ⟨2⟩).1 ⟨.usedAfterRelease 3 2, rfl⟩

end Schedule

end QubitReuse
