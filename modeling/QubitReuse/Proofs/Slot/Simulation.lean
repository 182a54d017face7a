import QubitReuse.Circuit.Execution
import QubitReuse.Proofs.Slot.Replay

namespace QubitReuse

universe u

variable {V : Type u} {m : Device V} {v w : Values V} {p p' : Pool} {q : Qubit} {s : Slot}

/-- The values `v` of the qubits and `w` of the slots agree as the pool has lent the slots. -/
structure Mirrors (m : Device V) (p : Pool) (v w : Values V) : Prop where
  held : ∀ q s, p.slotOf? q = some s → w s = v q
  free : ∀ s, (∀ q, p.slotOf? q ≠ some s) → w s = m.start
  idle : ∀ q, p.slotOf? q = none → v q = m.start

namespace Mirrors

theorem ofBound (m : Device V) (bound : Nat) :
    Mirrors m (.ofBound bound) m.initial m.initial :=
  ⟨fun _ _ _ => rfl, fun _ _ => rfl, fun _ _ => rfl⟩

theorem set (h : Mirrors m p v w) (hp : p.Sound) (hq : p.slotOf? q = some s) (x : V) :
    Mirrors m p (v.set q x) (w.set s x) := by
  constructor
  · intro r t hr
    by_cases hrq : r = q
    · have hst : s = t := Option.some.inj (hq.symm.trans (hrq ▸ hr))
      rw [hrq, ← hst, Values.set_self, Values.set_self]
    · have hts : t ≠ s := by
        intro hts
        exact hrq (hp.slotOf?_injective hr (hts ▸ hq))
      rw [Values.set_of_ne w x hts, Values.set_of_ne v x hrq, h.held r t hr]
  · intro t ht
    have hts : t ≠ s := by
      intro hts
      exact ht q (hts ▸ hq)
    rw [Values.set_of_ne w x hts, h.free t ht]
  · intro r hr
    have hrq : r ≠ q := by
      intro hrq
      rw [hrq, hq] at hr
      cases hr
    rw [Values.set_of_ne v x hrq, h.idle r hr]

theorem exec_gate (h : Mirrors m p v w) (hp : p.Sound) {g : Gate} {f : Qubit → Slot}
    (hf : ∀ q ∈ g.ends, p.slotOf? q = some (f q)) :
    Mirrors m p (g.exec m v) ((g.map f).exec m w) := by
  cases g with
  | pair a b =>
    have ha := hf a List.mem_cons_self
    have hb := hf b (List.mem_cons_of_mem a List.mem_cons_self)
    rw [Gate.map, Gate.exec, Gate.exec, h.held a _ ha, h.held b _ hb]
    exact (h.set hp ha _).set hp hb _
  | release q => exact h.set hp (hf q List.mem_cons_self) _

theorem exec_layer (h : Mirrors m p v w) (hp : p.Sound) {l : Layer} {f : Qubit → Slot}
    (hf : ∀ q ∈ Layer.ends l, p.slotOf? q = some (f q)) :
    Mirrors m p (Layer.exec m l v) (Layer.exec m (l.map (Gate.map f)) w) := by
  induction l generalizing v w with
  | nil => exact h
  | cons g l ih =>
    have hends : Layer.ends (g :: l) = g.ends ++ Layer.ends l := rfl
    rw [hends, List.forall_mem_append] at hf
    exact ih (h.exec_gate hp hf.1) hf.2

theorem acquire (h : Mirrors m p v w) (hp : p.Sound) (hq : Pool.acquire q p = .ok s p') :
    Mirrors m p' v w := by
  cases Pool.acquire_cases hq with
  | inl hheld => exact hheld.2 ▸ h
  | inr hnew =>
    have ⟨hnone, p₁, htake, _⟩ := hnew
    have hslot := fun r => Pool.slotOf?_of_acquire (r := r) hq
    constructor
    · intro r t hr
      rw [hslot] at hr
      split at hr
      · rename_i hrq
        cases hr
        rw [h.free s fun r => hp.slotOf?_ne_of_take? htake, hrq, h.idle q hnone]
      · exact h.held r t hr
    · intro t ht
      apply h.free t
      intro r hr
      apply ht r
      rw [hslot]
      split
      · rename_i hrq
        rw [hrq, hnone] at hr
        cases hr
      · exact hr
    · intro r hr
      rw [hslot] at hr
      split at hr
      · cases hr
      · exact h.idle r hr

theorem acquireAll (h : Mirrors m p v w) (hp : p.Sound) {qs : List Qubit}
    (hqs : Pool.acquireAll qs p = .ok () p') : Mirrors m p' v w := by
  have hboth : p'.Sound ∧ Mirrors m p' v w := by
    apply Pool.acquireAll_induct (P := fun p => p.Sound ∧ Mirrors m p v w) _ ⟨hp, h⟩ hqs
    intro q _ s p p' hp hq
    exact ⟨hp.1.acquire hq, hp.2.acquire hp.1 hq⟩
  exact hboth.2

theorem release (h : Mirrors m p v w) (hp : p.Sound) (hq : Pool.release q p = .ok s p') :
    Mirrors m p' (v.set q m.start) (w.set s m.start) := by
  have hs := (Pool.release_cases hq).1
  have hset := h.set hp hs m.start
  have hslot := fun r => Pool.slotOf?_of_release (r := r) hq
  constructor
  · intro r t hr
    rw [hslot] at hr
    split at hr
    · cases hr
    · exact hset.held r t hr
  · intro t ht
    by_cases hts : t = s
    · rw [hts, Values.set_self]
    · apply hset.free t
      intro r hr
      apply ht r
      rw [hslot]
      split
      · rename_i hrq
        rw [hrq, hs] at hr
        exact absurd (Option.some.inj hr).symm hts
      · exact hr
  · intro r hr
    by_cases hrq : r = q
    · rw [hrq, Values.set_self]
    · rw [hslot, if_neg hrq] at hr
      exact hset.idle r hr

theorem step (h : Mirrors m p v w) (hp : p.Sound) {st : Step} {ls : List Layer}
    (hst : st.place p = .ok ls p') : Mirrors m p' (st.exec m v) (Circuit.exec m ⟨ls⟩ w) := by
  have hp' := Step.sound_of_place hp hst
  have hreplay := Step.replay_iff.2 ⟨ls, hst⟩
  cases Step.placedAs_of_place hp hst with
  | skip hpp => exact hpp ▸ h
  | block _ hf _ => exact (h.acquireAll hp hreplay).exec_layer hp' hf
  | release hs =>
    have ⟨t, hq⟩ := Step.release_of_replay hreplay
    have hts : t = _ := Option.some.inj ((Pool.release_cases hq).1.symm.trans hs)
    exact hts ▸ h.release hp hq

theorem run (h : Mirrors m p v w) (hp : p.Sound) {steps : List Step} {ls : List Layer}
    (hsteps : Schedule.place ⟨steps⟩ p = .ok ls p') :
    Mirrors m p' (Schedule.exec m ⟨steps⟩ v) (Circuit.exec m ⟨ls⟩ w) := by
  -- From any sound pool and any values that agree, not only those at the start.
  induction steps generalizing p v w ls with
  | nil =>
    have ⟨hls, hpp⟩ := Schedule.place_nil_iff.1 hsteps
    subst hls hpp
    exact h
  | cons st steps ih =>
    have ⟨ls₁, p₁, ls₂, hst, hrest, hls⟩ := Schedule.place_cons_iff.1 hsteps
    have hrun := ih (h.step hp hst) (Step.sound_of_place hp hst) hrest
    rw [← hls, Circuit.exec_append]
    exact hrun

end Mirrors

namespace Schedule

/-- The layers and the pool after `k` steps are those of placing these steps alone. -/
theorem assignSlots_simulates {s : Schedule} {out : SlotCircuit} (h : s.assignSlots = .ok out) :
    ∃ (layers : Nat → List Layer) (pool : Nat → Pool),
      (∀ k, place ⟨s.steps.take k⟩ (.ofBound s.bound) = .ok (layers k) (pool k)) ∧
      layers 0 = [] ∧ layers s.steps.length = out.circuit.layers ∧
      (∀ k st, s.steps[k]? = some st →
        ∃ ls, layers (k + 1) = layers k ++ ls ∧ st.PlacedAs (pool k) (pool (k + 1)) ls) ∧
      (∀ k q r slot, (pool k).slotOf? q = some slot → (pool k).slotOf? r = some slot → q = r) ∧
      ∀ {V : Type u} (m : Device V) k,
        (∀ q slot, (pool k).slotOf? q = some slot →
          Circuit.exec m ⟨layers k⟩ m.initial slot =
            Schedule.exec m ⟨s.steps.take k⟩ m.initial q) ∧
        ∀ slot, (∀ q, (pool k).slotOf? q ≠ some slot) →
          Circuit.exec m ⟨layers k⟩ m.initial slot = m.start := by
  have ⟨pₙ, hplace⟩ := place_of_assignSlots h
  choose layers pool hrun using place_take hplace
  have hsound := fun k => sound_of_place (Pool.sound_ofBound s.bound) (hrun k)
  refine ⟨layers, pool, hrun, ?_, ?_, ?_, ?_, ?_⟩
  · exact (place_nil_iff.1 (hrun 0)).1.symm
  · have hall := hrun s.steps.length
    rw [List.take_length, hplace] at hall
    exact (EStateM.Result.ok.inj hall).1.symm
  · intro k st hst
    have hnext := hrun (k + 1)
    rw [List.take_add_one, hst, place_append_iff] at hnext
    have ⟨ls₁, p₁, ls₂, h₁, h₂, hls⟩ := hnext
    rw [hrun k] at h₁
    cases h₁
    have ⟨ls₃, p₃, ls₄, h₃, h₄, hls'⟩ := place_cons_iff.1 h₂
    have ⟨hls₄, hp₃⟩ := place_nil_iff.1 h₄
    subst hls₄ hp₃ hls'
    rw [List.append_nil] at hls
    exact ⟨ls₃, hls.symm, Step.placedAs_of_place (hsound k) h₃⟩
  · intro k q r slot
    exact (hsound k).slotOf?_injective
  · intro V m k
    have hmirrors := (Mirrors.ofBound m s.bound).run (Pool.sound_ofBound s.bound) (hrun k)
    exact ⟨hmirrors.held, hmirrors.free⟩

theorem assignSlots_simulates_reuse :
    assignSlots ⟨[.block [.pair ⟨0⟩ ⟨1⟩], .release ⟨0⟩, .block [.pair ⟨2⟩ ⟨1⟩]]⟩ =
      .ok ⟨⟨[[.pair ⟨0⟩ ⟨1⟩], [.release ⟨0⟩], [.pair ⟨0⟩ ⟨1⟩]]⟩, 2, 3⟩ ∧
    ∃ (layers : Nat → List Layer) (pool : Nat → Pool),
      layers 3 = [[.pair ⟨0⟩ ⟨1⟩], [.release ⟨0⟩], [.pair ⟨0⟩ ⟨1⟩]] ∧
      (pool 3).slotOf? ⟨2⟩ = some ⟨0⟩ ∧
      Circuit.exec ⟨1, fun x => (x.1 + x.2, x.2)⟩ ⟨layers 3⟩ (fun _ => 1) ⟨0⟩ = 2 := by
  have hout : assignSlots ⟨[.block [.pair ⟨0⟩ ⟨1⟩], .release ⟨0⟩, .block [.pair ⟨2⟩ ⟨1⟩]]⟩ =
      .ok ⟨⟨[[.pair ⟨0⟩ ⟨1⟩], [.release ⟨0⟩], [.pair ⟨0⟩ ⟨1⟩]]⟩, 2, 3⟩ := by
    rfl
  have ⟨layers, pool, hplace, _, hlast, _, _, hvalues⟩ := assignSlots_simulates hout
  have hslot : (pool 3).slotOf? ⟨2⟩ = some ⟨0⟩ := by
    have hpool := (EStateM.Result.ok.inj (hplace 3)).2
    rw [← hpool]
    rfl
  exact ⟨hout, layers, pool, hlast, hslot, (hvalues ⟨1, fun x => (x.1 + x.2, x.2)⟩ 3).1 _ _ hslot⟩

end Schedule

end QubitReuse
