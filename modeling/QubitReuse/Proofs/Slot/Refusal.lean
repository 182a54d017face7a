import QubitReuse.Proofs.Schedule.Lifetime
import QubitReuse.Proofs.Schedule.Values
import QubitReuse.Proofs.Slot.Account

namespace QubitReuse

namespace PoolM

variable {α β : Type} {p p' : Pool} {e : CompressionError}

theorem bind_eq_error_iff {x : PoolM α} {f : α → PoolM β} :
    (x >>= f) p = .error e p' ↔
      x p = .error e p' ∨ ∃ a p₁, x p = .ok a p₁ ∧ f a p₁ = .error e p' := by
  change EStateM.bind x f p = .error e p' ↔ _
  rw [EStateM.bind]
  cases x p with
  | ok a p₁ => simp
  | error e₁ p₁ => simp

theorem pure_ne_error {a : α} : (pure a : PoolM α) p ≠ .error e p' := nofun

end PoolM

namespace Schedule

variable {p p₁ p' : Pool} {e : CompressionError} {ls : List Layer} {st : Step}
  {steps steps' : List Step}

theorem place_cons_eq_error_iff : place ⟨st :: steps⟩ p = .error e p' ↔
    st.place p = .error e p' ∨
      ∃ ls p₁, st.place p = .ok ls p₁ ∧ place ⟨steps⟩ p₁ = .error e p' := by
  simp only [place, List.mapM_cons, bind_assoc, pure_bind, PoolM.bind_eq_error_iff,
    PoolM.pure_ne_error, and_false, exists_false, or_false]

theorem place_append_of_ok (h : place ⟨steps⟩ p = .ok ls p₁)
    (h' : place ⟨steps'⟩ p₁ = .error e p') : place ⟨steps ++ steps'⟩ p = .error e p' := by
  induction steps generalizing p ls with
  | nil => exact (place_nil_iff.1 h).2 ▸ h'
  | cons st steps ih =>
    obtain ⟨ls₁, p₂, _, hst, hsteps, _⟩ := place_cons_iff.1 h
    exact place_cons_eq_error_iff.2 (.inr ⟨ls₁, p₂, hst, ih hsteps⟩)

def UsedSinceRelease (steps : List Step) (q : Qubit) : Prop :=
  ∃ before l after, steps = before ++ .block l :: after ∧ (∃ g ∈ l, g.Touches q) ∧
    .release q ∉ after

/-- The first release of a qubit that was not used since it was last released. -/
structure FirstUnused (s : Schedule) (before : List Step) (q : Qubit) : Prop where
  next : ∃ after, s.steps = before ++ .release q :: after
  unused : ¬ UsedSinceRelease before q
  earlier : ∀ before' p after, before = before' ++ .release p :: after → UsedSinceRelease before' p

theorem isLive_iff_usedSinceRelease {q : Qubit} :
    isLive steps q = true ↔ UsedSinceRelease steps q := by
  simp only [isLive_iff, Layer.mem_ends, UsedSinceRelease]

theorem releasesLive_iff {s : Schedule} : s.ReleasesLive ↔
    ∀ before q after, s.steps = before ++ .release q :: after → UsedSinceRelease before q := by
  simp only [ReleasesLive, isLive_iff_usedSinceRelease]

variable {s : Schedule}

theorem exists_firstUnused {before after : List Step} {q : Qubit}
    (hs : s.steps = before ++ .release q :: after) (hq : ¬ UsedSinceRelease before q) :
    ∃ before q, s.FirstUnused before q := by
  by_cases hearlier :
      ∀ before' p after', before = before' ++ .release p :: after' → UsedSinceRelease before' p
  · exact ⟨before, q, ⟨after, hs⟩, hq, hearlier⟩
  · push Not at hearlier
    obtain ⟨before', p, after', hbefore, hp⟩ := hearlier
    have hs' : s.steps = before' ++ .release p :: (after' ++ .release q :: after) := by
      rw [hs, hbefore, List.append_assoc, List.cons_append]
    exact exists_firstUnused hs' hp
termination_by before.length
decreasing_by
  rw [hbefore, List.length_append, List.length_cons]
  exact Nat.lt_add_of_pos_right (Nat.succ_pos _)

theorem releasesLive_or_firstUnused (s : Schedule) :
    s.ReleasesLive ∨ ∃ before q, s.FirstUnused before q := by
  by_cases hlive : s.ReleasesLive
  · exact .inl hlive
  · rw [releasesLive_iff] at hlive
    push Not at hlive
    obtain ⟨before, q, after, hs, hq⟩ := hlive
    exact .inr (exists_firstUnused hs hq)

theorem FirstUnused.assignSlots_eq {before : List Step} {q : Qubit} (h : s.FirstUnused before q)
    (hbound : s.bound < UInt32.size) :
    s.assignSlots = .error (.unheldRelease q) := by
  obtain ⟨after, hs⟩ := h.next
  have hserves : (Pool.ofBound s.bound).Serves s.qubits :=
    Pool.serves_ofBound s.qubits.size_le_bound hbound
  have hqubits : ∀ st ∈ before, ∀ r ∈ st.qubits, r ∈ s.qubits := by
    intro st hst r hr
    exact mem_qubits.2 ⟨st, hs ▸ List.mem_append_left _ hst, hr⟩
  have ⟨p, hreplay⟩ := exists_replay_of_serves hserves hqubits
    fun before' r after' hr => isLive_iff_usedSinceRelease.2 (h.earlier before' r after' hr)
  have hnone : p.slotOf? q = none := by
    have hisSome := isSome_slotOf?_replay (q := q) hreplay
    rw [← Option.not_isSome_iff_eq_none, hisSome]
    exact fun hlive => h.unused (isLive_iff_usedSinceRelease.1 hlive)
  have hrelease : Step.place (.release q) p = .error (.unheldRelease q) p :=
    PoolM.bind_eq_error_iff.2 (.inl (Pool.release_eq_error_iff.2 ⟨hnone, rfl, rfl⟩))
  have hrest : place ⟨.release q :: after⟩ p = .error (.unheldRelease q) p :=
    place_cons_eq_error_iff.2 (.inl hrelease)
  have ⟨layers, hplace⟩ := replay_iff.1 hreplay
  have herror := place_append_of_ok hplace hrest
  rw [← hs] at herror
  rw [assignSlots, herror]

theorem releasesLive_iff_of_checkOrder {c : Circuit} {r : OrderReport}
    (h : s.checkOrder c = .ok r) :
    s.ReleasesLive ↔ ∀ q, .release q ∈ s.steps → ∃ g ∈ c.gates, g.Touches q := by
  obtain ⟨hlin, hrest, _⟩ := checkOrder_eq_ok_iff.1 h
  constructor
  · intro hlive q hq
    obtain ⟨before, after, hs⟩ := List.append_of_mem hq
    obtain ⟨_, l, _, rfl, hql, _⟩ := isLive_iff.1 (hlive before q after hs)
    have hgates : q ∈ Layer.ends s.gates := by
      obtain ⟨g, hg, hgq⟩ := Layer.mem_ends.1 hql
      exact Layer.mem_ends.2 ⟨g, List.mem_flatMap.2 ⟨.block l, by simp [hs], hg⟩, hgq⟩
    exact Layer.mem_ends.1 (hlin.mem_ends_gates.1 hgates)
  · intro hall before q after hs
    have hq : .release q ∈ s.steps := hs ▸ List.mem_append_right _ List.mem_cons_self
    obtain ⟨g, hg, hgq⟩ := Layer.mem_ends.1 (hlin.mem_ends_gates.2 (Layer.mem_ends.2 (hall q hq)))
    obtain ⟨l, hl, hql⟩ := exists_block_of_touches hg hgq
    rw [hs] at hl
    apply foldl_keepsLive (.inr ⟨l, ?_, hql⟩) (hrest.not_released_before hs)
    -- The block cannot come later, where the qubit has to rest.
    rcases List.mem_append.1 hl with hbefore | hrel
    · exact hbefore
    · rcases List.mem_cons.1 hrel with heq | hafter
      · cases heq
      · exact absurd hql (hrest.not_mem_qubits_after hs hafter)

theorem assignSlots_refuses_firstUnused {s : Schedule}
    (hid : ∀ q ∈ s.qubits, q.index < UInt32.size - 1) :
    ((∃ out, s.assignSlots = .ok out) ↔
      ∀ before q after, s.steps = before ++ .release q :: after → UsedSinceRelease before q) ∧
    (∀ e, s.assignSlots = .error e ↔
      ∃ before q, s.FirstUnused before q ∧ e = .unheldRelease q) ∧
    (∀ q bound, s.assignSlots ≠ .error (.slotsExhausted q bound)) ∧
    ∀ c r, s.checkOrder c = .ok r →
      ((∃ out, s.assignSlots = .ok out) ↔
        ∀ q, .release q ∈ s.steps → ∃ g ∈ c.gates, g.Touches q) := by
  have hbound : s.bound < UInt32.size := bound_lt hid
  have hok : (∃ out, s.assignSlots = .ok out) ↔ s.ReleasesLive := by
    refine ⟨fun ⟨out, hout⟩ => ?_, exists_assignSlots hbound⟩
    rcases s.releasesLive_or_firstUnused with hlive | ⟨before, q, hfirst⟩
    · exact hlive
    · cases hout.symm.trans (hfirst.assignSlots_eq hbound)
  have herror : ∀ e, s.assignSlots = .error e ↔
      ∃ before q, s.FirstUnused before q ∧ e = .unheldRelease q := by
    intro e
    constructor
    · intro he
      rcases s.releasesLive_or_firstUnused with hlive | ⟨before, q, hfirst⟩
      · obtain ⟨out, hout⟩ := exists_assignSlots hbound hlive
        cases he.symm.trans hout
      · cases he.symm.trans (hfirst.assignSlots_eq hbound)
        exact ⟨before, q, hfirst, rfl⟩
    · rintro ⟨before, q, hfirst, rfl⟩
      exact hfirst.assignSlots_eq hbound
  refine ⟨hok.trans releasesLive_iff, herror, ?_, ?_⟩
  · intro q bound h
    obtain ⟨_, _, _, hne⟩ := (herror _).1 h
    cases hne
  · intro c r h
    exact hok.trans (releasesLive_iff_of_checkOrder h)

/-- A qubit that is released twice, and one that never runs: the order check accepts its release. -/
theorem assignSlots_refuses_firstUnused_idle :
    (∃ before, FirstUnused ⟨[.block [.pair ⟨1⟩ ⟨2⟩], .release ⟨2⟩, .block [.pair ⟨1⟩ ⟨3⟩],
      .release ⟨2⟩]⟩ before ⟨2⟩) ∧
    (∃ r, checkOrder ⟨[.block [.pair ⟨1⟩ ⟨2⟩], .release ⟨5⟩]⟩ ⟨[[.pair ⟨1⟩ ⟨2⟩]]⟩ = .ok r) ∧
    ¬ ∃ out, assignSlots ⟨[.block [.pair ⟨1⟩ ⟨2⟩], .release ⟨5⟩]⟩ = .ok out := by
  constructor
  · have hid : ∀ q ∈ (qubits ⟨[.block [.pair ⟨1⟩ ⟨2⟩], .release ⟨2⟩, .block [.pair ⟨1⟩ ⟨3⟩],
        .release ⟨2⟩]⟩).toList, q.index < UInt32.size - 1 := by
      decide
    have ⟨_, herror, _⟩ := assignSlots_refuses_firstUnused hid
    obtain ⟨before, q, hfirst, heq⟩ := (herror (.unheldRelease ⟨2⟩)).1 rfl
    cases heq
    exact ⟨before, hfirst⟩
  · have hid : ∀ q ∈ (qubits ⟨[.block [.pair ⟨1⟩ ⟨2⟩], .release ⟨5⟩]⟩).toList,
        q.index < UInt32.size - 1 := by
      decide
    have hcheck : checkOrder ⟨[.block [.pair ⟨1⟩ ⟨2⟩], .release ⟨5⟩]⟩ ⟨[[.pair ⟨1⟩ ⟨2⟩]]⟩ =
        .ok ⟨true, 2, 1, 1⟩ := by
      rfl
    have ⟨_, _, _, haccepted⟩ := assignSlots_refuses_firstUnused hid
    refine ⟨⟨_, hcheck⟩, fun hok => ?_⟩
    have hused := (haccepted _ _ hcheck).1 hok ⟨5⟩ (by decide)
    revert hused
    decide

end Schedule

end QubitReuse
