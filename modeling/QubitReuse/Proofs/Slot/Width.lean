import QubitReuse.Proofs.Schedule.Lifetime
import QubitReuse.Proofs.Slot.Account
import QubitReuse.Proofs.Slot.Simulation

namespace QubitReuse

universe u

namespace Circuit

theorem bound_of_mem_qubits_iff {c : Circuit} {n : Nat} (hn : n ≤ UInt32.size)
    (h : ∀ q, q ∈ c.qubits ↔ q.index < n) : c.bound = n := by
  have hends : ∀ q, q ∈ c.ends ↔ q.index < n := by
    intro q
    rw [← h, qubits, QubitSet.mem_ofList]
  cases n with
  | zero =>
    have hnil : c.ends = [] := by
      apply List.eq_nil_iff_forall_not_mem.2
      intro q hq
      exact Nat.not_lt_zero _ ((hends q).1 hq)
    rw [bound, hnil]
    rfl
  | succ n =>
    have hlast := index_nthSlot (Nat.lt_of_succ_le hn)
    have hmax : (c.ends.map (·.index + 1)).max? = some (n + 1) := by
      apply List.max?_eq_some_iff.2
      constructor
      · refine List.mem_map.2 ⟨nthSlot n, ?_, congrArg (· + 1) hlast⟩
        rw [hends, hlast]
        exact Nat.lt_succ_self n
      · intro b hb
        obtain ⟨q, hq, rfl⟩ := List.mem_map.1 hb
        exact (hends q).1 hq
    rw [bound, hmax]
    rfl

end Circuit

namespace Pool

variable {p p' : Pool} {q : Qubit} {s t : Slot} {qs : List Qubit}

theorem inUse_le_of_acquire (hq : acquire q p = .ok s p') : p.inUse ≤ p'.inUse := by
  rcases acquire_cases hq with ⟨_, rfl⟩ | ⟨_, p₁, htake, rfl⟩
  · exact Nat.le_refl _
  · rw [inUse, inUse, lend, (take?_frame htake).1]
    exact Nat.le_succ _

theorem peak_of_acquireAll (h : p.Sound) (hqs : acquireAll qs p = .ok () p') :
    p'.peak = max p.peak p'.inUse := by
  have hall : p'.Sound ∧ p'.peak = max p.peak p'.inUse := by
    apply acquireAll_induct (P := fun p' => p'.Sound ∧ p'.peak = max p.peak p'.inUse) _ _ hqs
    · intro q _ s p₁ p₂ ⟨hp₁, hpeak⟩ hq
      refine ⟨hp₁.acquire hq, ?_⟩
      rw [peak_of_acquire hp₁ hq, hpeak, Nat.max_assoc, Nat.max_eq_right (inUse_le_of_acquire hq)]
    · exact ⟨h, (Nat.max_eq_left h.inUse_le_peak).symm⟩
  exact hall.2

theorem index_lt_opened_of_acquireAll (h : p.Sound) (hqs : acquireAll qs p = .ok () p') :
    t.index < p'.opened ↔ t.index < p.opened ∨ ∃ q ∈ qs, p'.slotOf? q = some t := by
  induction qs generalizing p with
  | nil =>
    rw [acquireAll, PoolM.pure_eq_ok_iff] at hqs
    simp [hqs.2]
  | cons q qs ih =>
    obtain ⟨s, p₁, hq, hrest⟩ := acquireAll_cons_iff.1 hqs
    have hs : p'.slotOf? q = some s := by
      apply slotOf?_keep_all _ hrest
      rw [slotOf?_of_acquire hq, if_pos rfl]
    rw [ih (h.acquire hq) hrest, index_lt_opened_of_acquire h hq]
    simp [hs, or_assoc, eq_comm]

end Pool

namespace Step

variable {p p' : Pool} {st : Step} {ls : List Layer} {t : Slot}

theorem peak_of_replay (h : p.Sound) (hst : st.replay p = .ok () p') :
    p'.peak = max p.peak p'.inUse := by
  cases st with
  | block l => exact Pool.peak_of_acquireAll h hst
  | release q =>
    have ⟨s, hq⟩ := release_of_replay hst
    exact Pool.peak_of_release h hq

theorem index_lt_opened_of_place (h : p.Sound) (hst : st.place p = .ok ls p') :
    t.index < p'.opened ↔ t.index < p.opened ∨ ∃ l ∈ ls, t ∈ Layer.ends l := by
  have hreplay := replay_iff.2 ⟨ls, hst⟩
  cases placedAs_of_place h hst with
  | skip hp => simp [hp]
  | @block l f _ hf _ =>
    rw [Pool.index_lt_opened_of_acquireAll h hreplay]
    apply or_congr_right
    simp only [List.mem_singleton, exists_eq_left, Layer.ends_map, List.mem_map]
    apply exists_congr
    intro q
    apply and_congr_right
    intro hq
    simp [hf q hq]
  | @release q s hs =>
    obtain ⟨_, hq⟩ := release_of_replay hreplay
    rw [Pool.opened_of_release hq]
    simp only [List.mem_singleton, exists_eq_left, Layer.ends, List.flatMap_cons, List.flatMap_nil,
      Gate.ends, List.append_nil]
    exact (or_iff_left_of_imp fun hts => hts ▸ h.index_lt_opened hs).symm

end Step

namespace Schedule

variable {p p' : Pool} {steps : List Step} {ls : List Layer} {t : Slot}

theorem index_lt_opened_of_place (h : p.Sound) (hsteps : place ⟨steps⟩ p = .ok ls p') :
    t.index < p'.opened ↔ t.index < p.opened ∨ ∃ l ∈ ls, t ∈ Layer.ends l := by
  induction steps generalizing p ls with
  | nil =>
    obtain ⟨rfl, rfl⟩ := place_nil_iff.1 hsteps
    simp
  | cons st steps ih =>
    obtain ⟨ls₁, p₁, ls₂, hst, hrest, rfl⟩ := place_cons_iff.1 hsteps
    rw [ih (Step.sound_of_place h hst) hrest, Step.index_lt_opened_of_place h hst]
    simp only [List.mem_append, or_and_right, exists_or, or_assoc]

theorem inUse_of_place {bound : Nat} (hsteps : place ⟨steps⟩ (.ofBound bound) = .ok ls p) :
    p.inUse = (liveQubits steps).length := by
  have hsound := sound_of_place (Pool.sound_ofBound bound) hsteps
  have hperm : (p.held.map Prod.fst).Perm (liveQubits steps) := by
    apply (List.perm_ext_iff_of_nodup hsound.nodup_keys (nodup_liveQubits steps)).2
    intro q
    have hlive : (p.slotOf? q).isSome = isLive steps q :=
      isSome_slotOf?_replay (replay_iff.2 ⟨ls, hsteps⟩)
    rw [mem_liveQubits, ← hlive, Option.isSome_iff_exists]
    simp [hsound.slotOf?_eq_some_iff]
  rw [Pool.inUse, ← hperm.length_eq, List.length_map]

theorem peak_of_place {s : Schedule} {bound : Nat} (hs : s.place (.ofBound bound) = .ok ls p) :
    p.peak = s.peakLive := by
  choose layers pool hrun using place_take hs
  have huse := fun k => inUse_of_place (hrun k)
  have hpeak := max?_map_range (fun k => (pool k).inUse) (fun k => (pool k).peak) s.steps.length ?_ ?_
  · have hall := hrun s.steps.length
    rw [List.take_length, hs] at hall
    cases hall
    simp only [huse] at hpeak
    rw [peakLive, hpeak]
    rfl
  · have hfirst := (place_nil_iff.1 (hrun 0)).2
    rw [← hfirst]
    rfl
  · intro k hk
    have hnext := hrun (k + 1)
    rw [List.take_succ_eq_append_getElem hk, place_append_iff] at hnext
    obtain ⟨ls₁, p₁, ls₂, hfirst, hlast, _⟩ := hnext
    rw [hrun k] at hfirst
    cases hfirst
    have hsound := sound_of_place (Pool.sound_ofBound bound) (hrun k)
    obtain ⟨_, p₂, _, hst, hnil, _⟩ := place_cons_iff.1 hlast
    rw [← (place_nil_iff.1 hnil).2]
    exact Step.peak_of_replay hsound (Step.replay_iff.2 ⟨_, hst⟩)

/-- A qubit is live if a block on it comes after its last release, and `slotAt` may lend any slot to
any lifetime of a qubit. -/
theorem width_eq_peakLive {s : Schedule} {out : SlotCircuit} (h : s.assignSlots = .ok out) :
    out.width = s.peakLive ∧
      (∀ k q, q ∈ liveQubits (s.steps.take k) ↔ ∃ before l after,
        s.steps.take k = before ++ .block l :: after ∧ q ∈ Layer.ends l ∧ .release q ∉ after) ∧
      (∀ slot, slot ∈ out.circuit.qubits ↔ slot.index < out.width) ∧
      out.circuit.bound = out.width ∧ out.width ≤ s.qubits.size ∧
      ∀ {α : Type u} (slotAt : Qubit → Nat → α),
        (∀ k, ∀ q ∈ liveQubits (s.steps.take k), ∀ r ∈ liveQubits (s.steps.take k),
          slotAt q (lifetime (s.steps.take k) q) = slotAt r (lifetime (s.steps.take k) r) →
            q = r) →
        ∀ slots : List α, (∀ k, ∀ q ∈ liveQubits (s.steps.take k),
          slotAt q (lifetime (s.steps.take k) q) ∈ slots) → out.width ≤ slots.length := by
  have ⟨p, hplace⟩ := place_of_assignSlots h
  have hsound := sound_of_place (Pool.sound_ofBound s.bound) hplace
  have hopened : out.width = p.opened := by
    rw [assignSlots_of_place hplace] at h
    exact (congrArg SlotCircuit.width (Except.ok.inj h)).symm
  have hwidth : out.width = s.peakLive := by
    rw [hopened, ← hsound.peak_eq, peak_of_place hplace]
  have hslots : ∀ slot, slot ∈ out.circuit.qubits ↔ slot.index < out.width := by
    intro slot
    rw [hopened, index_lt_opened_of_place (Pool.sound_ofBound s.bound) hplace,
      Circuit.mem_qubits_iff_exists_layer]
    exact (or_iff_right (Nat.not_lt_zero _)).symm
  have ⟨k, hk⟩ := s.exists_peakLive
  refine ⟨hwidth, fun k q => mem_liveQubits.trans isLive_iff, hslots, ?_, ?_, ?_⟩
  · apply Circuit.bound_of_mem_qubits_iff _ hslots
    rw [hopened]
    exact Nat.le_trans hsound.opened_le (Nat.le_of_lt p.capacity_lt)
  · rw [hwidth, ← hk]
    exact length_liveQubits_le s k
  · intro α slotAt hown slots hmem
    rw [hwidth, ← hk]
    exact length_liveQubits_le_slots (hown k) (hmem k)

theorem width_eq_peakLive_reuse :
    ∃ out, assignSlots ⟨[.block [.pair ⟨4⟩ ⟨1⟩], .release ⟨4⟩, .block [.pair ⟨2⟩ ⟨1⟩],
      .release ⟨2⟩, .block [.release ⟨2⟩]]⟩ = .ok out ∧
      out.width = 2 ∧ out.circuit.bound = 2 ∧ (⟨1⟩ : Qubit) ∈ out.circuit.qubits := by
  have hout : assignSlots ⟨[.block [.pair ⟨4⟩ ⟨1⟩], .release ⟨4⟩, .block [.pair ⟨2⟩ ⟨1⟩],
      .release ⟨2⟩, .block [.release ⟨2⟩]]⟩ =
      .ok ⟨⟨[[.pair ⟨0⟩ ⟨1⟩], [.release ⟨0⟩], [.pair ⟨0⟩ ⟨1⟩], [.release ⟨0⟩], [.release ⟨0⟩]]⟩,
        2, 5⟩ := by
    rfl
  have ⟨_, _, hslots, hbound, _⟩ := width_eq_peakLive.{0} hout
  exact ⟨_, hout, rfl, hbound, (hslots ⟨1⟩).2 (by decide)⟩

end Schedule

end QubitReuse
