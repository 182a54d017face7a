import QubitReuse.Proofs.Slot.Replay
import QubitReuse.Slot.Lifetime

namespace QubitReuse

namespace Pool

/-- The holders are among these qubits, and there is a slot for each of them. -/
structure Serves (p : Pool) (qs : QubitSet) : Prop where
  sound : p.Sound
  room : qs.size ≤ p.capacity
  holders : ∀ q s, p.slotOf? q = some s → q ∈ qs

variable {p p' : Pool} {qs : QubitSet} {q r : Qubit} {s : Slot}

theorem serves_ofBound {bound : Nat} (h : qs.size ≤ bound) (hbound : bound < UInt32.size) :
    (ofBound bound).Serves qs :=
  ⟨sound_ofBound bound, Nat.le_trans h (Nat.le_of_eq (Nat.mod_eq_of_lt hbound).symm), nofun⟩

theorem Serves.length_lt (h : p.Serves qs) (hq : q ∈ qs) (hnone : p.slotOf? q = none) :
    p.held.length < qs.size := by
  have hnodup := List.nodup_cons.2 ⟨h.sound.not_mem_keys hnone, h.sound.nodup_keys⟩
  have hsub : q :: p.held.map Prod.fst ⊆ qs.toList := by
    apply List.cons_subset.2
    refine ⟨hq, fun r hr => ?_⟩
    have ⟨x, hx, hxr⟩ := List.mem_map.1 hr
    exact hxr ▸ h.holders _ _ (h.sound.slotOf?_eq_some_iff.2 hx)
  have hlen := List.Nodup.length_le_of_subset hnodup hsub
  rwa [List.length_cons, List.length_map] at hlen

theorem Serves.exists_acquire (h : p.Serves qs) (hq : q ∈ qs) :
    ∃ s p', acquire q p = .ok s p' := by
  rw [acquire]
  split
  · exact ⟨_, _, rfl⟩
  · rename_i hnone
    rw [take?]
    split
    · rename_i htake
      exact ⟨_, _, rfl⟩
    · rename_i htake
      split at htake
      · cases htake
      · rename_i hreturned
        -- No slot has come back, so all opened ones are held, by fewer qubits than slots.
        have hopened := h.sound.opened_eq
        rw [hreturned, List.length_nil, Nat.zero_add] at hopened
        have hlt : p.opened < p.capacity :=
          hopened ▸ Nat.lt_of_lt_of_le (h.length_lt hq hnone) h.room
        rw [if_pos hlt] at htake
        cases htake

theorem Serves.acquire (h : p.Serves qs) (hq : q ∈ qs) (hp' : acquire q p = .ok s p') :
    p'.Serves qs := by
  refine ⟨h.sound.acquire hp', ?_, ?_⟩
  · rw [capacity, bound_of_acquire hp']
    exact h.room
  · intro r t hr
    rw [slotOf?_of_acquire hp'] at hr
    split at hr
    · rename_i hrq
      exact hrq ▸ hq
    · exact h.holders r t hr

theorem Serves.release (h : p.Serves qs) (hp' : release q p = .ok s p') : p'.Serves qs := by
  refine ⟨h.sound.release hp', ?_, ?_⟩
  · rw [capacity, bound_of_release hp']
    exact h.room
  · intro r t hr
    rw [slotOf?_of_release hp'] at hr
    split at hr
    · cases hr
    · exact h.holders r t hr

theorem Serves.exists_acquireAll {rs : List Qubit} (h : p.Serves qs) (hrs : ∀ r ∈ rs, r ∈ qs) :
    ∃ p', acquireAll rs p = .ok () p' := by
  induction rs generalizing p with
  | nil => exact ⟨p, rfl⟩
  | cons r rs ih =>
    have ⟨hr, hrs⟩ := List.forall_mem_cons.1 hrs
    have ⟨s, p₁, hp₁⟩ := h.exists_acquire hr
    have ⟨p', hp'⟩ := ih (h.acquire hr hp₁) hrs
    exact ⟨p', acquireAll_cons_iff.2 ⟨s, p₁, hp₁, hp'⟩⟩

theorem exists_release {p : Pool} (h : (p.slotOf? q).isSome) : ∃ s p', release q p = .ok s p' := by
  have ⟨s, hs⟩ := Option.isSome_iff_exists.1 h
  rw [release]
  split
  · exact ⟨_, _, rfl⟩
  · rename_i hnone
    rw [hs] at hnone
    cases hnone

theorem isSome_slotOf?_acquireAll {rs : List Qubit} (h : acquireAll rs p = .ok () p') :
    (p'.slotOf? q).isSome = ((p.slotOf? q).isSome || decide (q ∈ rs)) := by
  induction rs generalizing p with
  | nil => simp [(PoolM.pure_eq_ok_iff.1 h).2]
  | cons r rs ih =>
    have ⟨s, p₁, hr, hrs⟩ := acquireAll_cons_iff.1 h
    rw [ih hrs, slotOf?_of_acquire hr]
    by_cases hqr : q = r
    · simp [hqr]
    · simp [hqr]

end Pool

namespace Step

variable {p p' : Pool} {qs : QubitSet} {q : Qubit}

theorem isSome_slotOf?_replay {st : Step} (h : st.replay p = .ok () p') :
    (p'.slotOf? q).isSome = st.keepsLive q (p.slotOf? q).isSome := by
  cases st with
  | block l => exact Pool.isSome_slotOf?_acquireAll h
  | release r =>
    have ⟨s, hr⟩ := release_of_replay h
    rw [Pool.slotOf?_of_release hr, keepsLive]
    by_cases hqr : q = r
    · simp [hqr]
    · simp [hqr]

theorem serves_of_replay {st : Step} (hp : p.Serves qs) (hst : ∀ q ∈ st.qubits, q ∈ qs)
    (h : st.replay p = .ok () p') : p'.Serves qs := by
  cases st with
  | block l =>
    apply Pool.acquireAll_induct (P := (·.Serves qs)) _ hp h
    intro q hq s p p' hp hp'
    exact hp.acquire (hst q hq) hp'
  | release r =>
    have ⟨s, hr⟩ := release_of_replay h
    exact hp.release hr

theorem exists_replay {st : Step} (hp : p.Serves qs) (hst : ∀ q ∈ st.qubits, q ∈ qs)
    (hlive : ∀ q, st = .release q → (p.slotOf? q).isSome) : ∃ p', st.replay p = .ok () p' := by
  cases st with
  | block l => exact hp.exists_acquireAll hst
  | release q =>
    have ⟨s, p', hq⟩ := Pool.exists_release (hlive q rfl)
    exact ⟨p', PoolM.bind_eq_ok_iff.2 ⟨s, p', hq, rfl⟩⟩

end Step

theorem foldl_keepsLive {steps : List Step} {q : Qubit} {live : Bool}
    (h : live = true ∨ ∃ l, .block l ∈ steps ∧ q ∈ Layer.ends l) (hq : .release q ∉ steps) :
    steps.foldl (Step.keepsLive q) live = true := by
  induction steps generalizing live with
  | nil =>
    cases h with
    | inl hlive => exact hlive
    | inr hused =>
      have ⟨_, hl, _⟩ := hused
      cases hl
  | cons st steps ih =>
    have ⟨hst, hsteps⟩ := List.ne_and_not_mem_of_not_mem_cons hq
    apply ih _ hsteps
    cases h with
    | inl hlive =>
      left
      cases st with
      | block l => rw [hlive, Step.keepsLive, Bool.true_or]
      | release r =>
        have hqr : q ≠ r := fun hqr => hst (hqr ▸ rfl)
        rw [hlive, Step.keepsLive, Bool.true_and, decide_eq_true hqr]
    | inr hused =>
      have ⟨l, hl, hql⟩ := hused
      cases List.mem_cons.1 hl with
      | inl hl =>
        left
        rw [← hl, Step.keepsLive, decide_eq_true hql, Bool.or_true]
      | inr hl => exact .inr ⟨l, hl, hql⟩

namespace Schedule

variable {p p' : Pool} {qs : QubitSet} {steps : List Step}

theorem isSome_slotOf?_replay {q : Qubit} (h : replay ⟨steps⟩ p = .ok () p') :
    (p'.slotOf? q).isSome = steps.foldl (Step.keepsLive q) (p.slotOf? q).isSome := by
  induction steps generalizing p with
  | nil => rw [(PoolM.pure_eq_ok_iff.1 h).2, List.foldl_nil]
  | cons st steps ih =>
    have ⟨p₁, hst, hsteps⟩ := replay_cons_iff.1 h
    rw [ih hsteps, List.foldl_cons, Step.isSome_slotOf?_replay hst]

theorem exists_replay_of_serves (hp : p.Serves qs) (hqs : ∀ st ∈ steps, ∀ q ∈ st.qubits, q ∈ qs)
    (hlive : ∀ before q after, steps = before ++ .release q :: after →
      before.foldl (Step.keepsLive q) (p.slotOf? q).isSome = true) :
    ∃ p', replay ⟨steps⟩ p = .ok () p' := by
  induction steps generalizing p with
  | nil => exact ⟨p, rfl⟩
  | cons st steps ih =>
    have ⟨hst, hsteps⟩ := List.forall_mem_cons.1 hqs
    have ⟨p₁, hp₁⟩ := Step.exists_replay hp hst fun q hq => hlive [] q steps (hq ▸ rfl)
    have ⟨p', hp'⟩ := ih (Step.serves_of_replay hp hst hp₁) hsteps fun before q after h => by
      rw [Step.isSome_slotOf?_replay hp₁]
      exact hlive (st :: before) q after (h ▸ rfl)
    exact ⟨p', replay_cons_iff.2 ⟨p₁, hp₁, hp'⟩⟩

theorem mem_qubits {s : Schedule} {q : Qubit} :
    q ∈ s.qubits ↔ ∃ st ∈ s.steps, q ∈ st.qubits := by
  rw [qubits, QubitSet.mem_ofList, List.mem_flatMap]

theorem bound_lt {s : Schedule} (h : ∀ q ∈ s.qubits, q.index < UInt32.size - 1) :
    s.bound < UInt32.size :=
  Nat.lt_of_le_of_lt (QubitSet.bound_le h) (by decide)

theorem exists_replay {s : Schedule} (hbound : s.bound < UInt32.size) (hlive : s.ReleasesLive) :
    ∃ p', s.replay (.ofBound s.bound) = .ok () p' := by
  apply exists_replay_of_serves (Pool.serves_ofBound s.qubits.size_le_bound hbound)
  · intro st hst q hq
    exact mem_qubits.2 ⟨st, hst, hq⟩
  · exact hlive

theorem exists_assignSlots {s : Schedule} (hbound : s.bound < UInt32.size)
    (hlive : s.ReleasesLive) : ∃ out, s.assignSlots = .ok out := by
  have ⟨p, hreplay⟩ := exists_replay hbound hlive
  have ⟨layers, hplace⟩ := replay_iff.1 hreplay
  exact ⟨_, assignSlots_of_place hplace⟩

end Schedule

end QubitReuse
