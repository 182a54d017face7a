import QubitReuse.Proofs.Slot.Pool
import QubitReuse.Slot.Assign

namespace QubitReuse

namespace PoolM

variable {α β : Type} {p p' : Pool}

theorem bind_eq_ok_iff {x : PoolM α} {f : α → PoolM β} {b : β} :
    (x >>= f) p = .ok b p' ↔ ∃ a p₁, x p = .ok a p₁ ∧ f a p₁ = .ok b p' := by
  change EStateM.bind x f p = .ok b p' ↔ _
  rw [EStateM.bind]
  cases x p with
  | ok a p₁ =>
    constructor
    · intro h
      exact ⟨a, p₁, rfl, h⟩
    · intro ⟨_, _, ha, hb⟩
      cases ha
      exact hb
  | error e p₁ => exact iff_of_false nofun fun ⟨_, _, h, _⟩ => nomatch h

theorem pure_eq_ok_iff {a b : α} : (pure a : PoolM α) p = .ok b p' ↔ a = b ∧ p = p' := by
  change EStateM.Result.ok a p = .ok b p' ↔ _
  rw [EStateM.Result.ok.injEq]

theorem map_eq_ok_iff {x : PoolM α} {f : α → β} {b : β} :
    (f <$> x) p = .ok b p' ↔ ∃ a, x p = .ok a p' ∧ f a = b := by
  rw [map_eq_pure_bind, bind_eq_ok_iff]
  constructor
  · intro ⟨a, p₁, ha, hb⟩
    have ⟨hb, hp⟩ := pure_eq_ok_iff.1 hb
    exact ⟨a, hp ▸ ha, hb⟩
  · intro ⟨a, ha, hb⟩
    exact ⟨a, p', ha, pure_eq_ok_iff.2 ⟨hb, rfl⟩⟩

end PoolM

namespace Pool

def slotOf (p : Pool) (q : Qubit) : Slot := (p.slotOf? q).getD default

variable {p p' : Pool}

theorem slotOf_eq {q : Qubit} {s : Slot} (h : p.slotOf? q = some s) : p.slotOf q = s := by
  rw [slotOf, h, Option.getD_some]

theorem slotOf?_eq_some_slotOf {q : Qubit} (h : (p.slotOf? q).isSome) :
    p.slotOf? q = some (p.slotOf q) := by
  have ⟨s, hs⟩ := Option.isSome_iff_exists.1 h
  rw [hs, slotOf_eq hs]

theorem acquireAll_cons_iff {q : Qubit} {qs : List Qubit} :
    acquireAll (q :: qs) p = .ok () p' ↔
      ∃ s p₁, acquire q p = .ok s p₁ ∧ acquireAll qs p₁ = .ok () p' := by
  rw [acquireAll, PoolM.bind_eq_ok_iff]

theorem acquireAll_induct {P : Pool → Prop} {qs : List Qubit}
    (hstep : ∀ q ∈ qs, ∀ s p p', P p → acquire q p = .ok s p' → P p')
    (hp : P p) (h : acquireAll qs p = .ok () p') : P p' := by
  induction qs generalizing p with
  | nil =>
    rw [acquireAll, PoolM.pure_eq_ok_iff] at h
    exact h.2 ▸ hp
  | cons q qs ih =>
    have ⟨s, p₁, hq, hqs⟩ := acquireAll_cons_iff.1 h
    exact ih (fun r hr => hstep r (List.mem_cons_of_mem q hr))
      (hstep q List.mem_cons_self s p p₁ hp hq) hqs

theorem slotOf?_keep {q r : Qubit} {s t : Slot} (hq : p.slotOf? q = some s)
    (hr : acquire r p = .ok t p') : p'.slotOf? q = some s := by
  rw [slotOf?_of_acquire hr]
  split
  · rename_i hqr
    cases acquire_cases hr with
    | inl hr => rw [← hr.1, ← hqr, hq]
    | inr hr =>
      rw [hqr, hr.1] at hq
      cases hq
  · exact hq

theorem slotOf?_keep_all {qs : List Qubit} {q : Qubit} {s : Slot} (hq : p.slotOf? q = some s)
    (h : acquireAll qs p = .ok () p') : p'.slotOf? q = some s :=
  acquireAll_induct (fun _ _ _ _ _ hp hr => slotOf?_keep hp hr) hq h

theorem isSome_slotOf?_of_acquireAll {qs : List Qubit} (h : acquireAll qs p = .ok () p')
    {q : Qubit} (hq : q ∈ qs) : (p'.slotOf? q).isSome := by
  induction qs generalizing p with
  | nil => cases hq
  | cons r qs ih =>
    have ⟨s, p₁, hr, hqs⟩ := acquireAll_cons_iff.1 h
    cases List.mem_cons.1 hq with
    | inl hqr =>
      have hs : p₁.slotOf? q = some s := by
        rw [slotOf?_of_acquire hr, if_pos hqr]
      rw [slotOf?_keep_all hs hqs]
      rfl
    | inr hq => exact ih hqs hq

end Pool

theorem map_mapM_acquire (l : Layer) :
    (fun _ => ()) <$> l.mapM (·.mapM Pool.acquire) = Pool.acquireAll (Layer.ends l) := by
  induction l with
  | nil => simp [Layer.ends, Pool.acquireAll]
  | cons g l ih =>
    have hends : Layer.ends (g :: l) = g.ends ++ Layer.ends l := rfl
    rw [hends]
    cases g with
    | pair a b =>
      simp only [Gate.ends, List.cons_append, List.nil_append, Pool.acquireAll, ← ih]
      simp [Gate.mapM]
    | release q =>
      simp only [Gate.ends, List.cons_append, List.nil_append, Pool.acquireAll, ← ih]
      simp [Gate.mapM]

theorem mapM_acquire_iff {l : Layer} {p p' : Pool} :
    (∃ l', l.mapM (·.mapM Pool.acquire) p = .ok l' p') ↔
      Pool.acquireAll (Layer.ends l) p = .ok () p' := by
  rw [← map_mapM_acquire, PoolM.map_eq_ok_iff]
  exact exists_congr fun l' => (and_iff_left rfl).symm

theorem Gate.eq_map_of_mapM {g g' : Gate} {p p₁ p' : Pool}
    (h : g.mapM Pool.acquire p = .ok g' p₁)
    (hkeep : ∀ q s, p₁.slotOf? q = some s → p'.slotOf? q = some s) :
    g' = g.map p'.slotOf := by
  cases g with
  | pair a b =>
    have ⟨s, p₂, ha, h⟩ := PoolM.bind_eq_ok_iff.1 h
    have ⟨t, p₃, hb, h⟩ := PoolM.bind_eq_ok_iff.1 h
    have ⟨hg, hp⟩ := PoolM.pure_eq_ok_iff.1 h
    subst hp
    have hb' : p'.slotOf? b = some t := hkeep b t (by rw [Pool.slotOf?_of_acquire hb, if_pos rfl])
    have ha' : p'.slotOf? a = some s := hkeep a s
      (Pool.slotOf?_keep (by rw [Pool.slotOf?_of_acquire ha, if_pos rfl]) hb)
    rw [← hg, Gate.map, Pool.slotOf_eq ha', Pool.slotOf_eq hb']
  | release q =>
    have ⟨s, p₂, hq, h⟩ := PoolM.bind_eq_ok_iff.1 h
    have ⟨hg, hp⟩ := PoolM.pure_eq_ok_iff.1 h
    subst hp
    have hq' : p'.slotOf? q = some s := hkeep q s (by rw [Pool.slotOf?_of_acquire hq, if_pos rfl])
    rw [← hg, Gate.map, Pool.slotOf_eq hq']

theorem Layer.eq_map_of_mapM {l l' : Layer} {p p' : Pool}
    (h : l.mapM (·.mapM Pool.acquire) p = .ok l' p') : l' = l.map (Gate.map p'.slotOf) := by
  induction l generalizing l' p with
  | nil =>
    rw [List.mapM_nil, PoolM.pure_eq_ok_iff] at h
    exact h.1.symm
  | cons g l ih =>
    rw [List.mapM_cons] at h
    have ⟨g', p₁, hg, h⟩ := PoolM.bind_eq_ok_iff.1 h
    have ⟨l'', p₂, hl, h⟩ := PoolM.bind_eq_ok_iff.1 h
    have ⟨hl', hp⟩ := PoolM.pure_eq_ok_iff.1 h
    subst hp
    have hkeep := fun q s hq => Pool.slotOf?_keep_all (q := q) (s := s) hq
      (mapM_acquire_iff.1 ⟨l'', hl⟩)
    rw [← hl', List.map_cons, ← ih hl, ← Gate.eq_map_of_mapM hg hkeep]

namespace Step

variable {p p' : Pool}

theorem replay_eq (st : Step) : st.replay = (fun _ => ()) <$> st.place := by
  cases st with
  | block l =>
    cases l with
    | nil => simp [replay, place, Layer.ends, Pool.acquireAll]
    | cons g l =>
      rw [replay, ← map_mapM_acquire, place]
      · simp
      · exact List.cons_ne_nil g l
  | release q => simp [replay, place]

theorem replay_iff {st : Step} : st.replay p = .ok () p' ↔ ∃ ls, st.place p = .ok ls p' := by
  rw [replay_eq, PoolM.map_eq_ok_iff]
  exact exists_congr fun ls => and_iff_left rfl

theorem release_of_replay {q : Qubit} (h : (Step.release q).replay p = .ok () p') :
    ∃ s, Pool.release q p = .ok s p' := by
  have ⟨s, p₁, hq, hpure⟩ := PoolM.bind_eq_ok_iff.1 h
  exact ⟨s, (PoolM.pure_eq_ok_iff.1 hpure).2 ▸ hq⟩

/-- How a step is placed: the pool before it, the pool after it, and the layers it becomes. -/
inductive PlacedAs (p p' : Pool) : Step → List Layer → Prop
  | skip : p' = p → PlacedAs p p' (.block []) []
  | block {l : Layer} {f : Qubit → Slot} : l ≠ [] →
      (∀ q ∈ Layer.ends l, p'.slotOf? q = some (f q)) →
      (∀ q ∈ Layer.ends l, ∀ r ∈ Layer.ends l, f q = f r → q = r) →
      PlacedAs p p' (.block l) [l.map (Gate.map f)]
  | release {q : Qubit} {s : Slot} : p.slotOf? q = some s →
      PlacedAs p p' (.release q) [[.release s]]

theorem sound_of_place {st : Step} {ls : List Layer} (hp : p.Sound) (h : st.place p = .ok ls p') :
    p'.Sound := by
  have hreplay := replay_iff.2 ⟨ls, h⟩
  cases st with
  | block l => exact Pool.acquireAll_induct (fun _ _ _ _ _ hp hq => hp.acquire hq) hp hreplay
  | release q =>
    have ⟨s, hq⟩ := release_of_replay hreplay
    exact hp.release hq

theorem placedAs_of_place {st : Step} {ls : List Layer} (hp : p.Sound)
    (h : st.place p = .ok ls p') : PlacedAs p p' st ls := by
  have hp' := sound_of_place hp h
  cases st with
  | block l =>
    cases l with
    | nil =>
      have ⟨hls, hpp⟩ := PoolM.pure_eq_ok_iff.1 h
      subst hls
      exact .skip hpp.symm
    | cons g l =>
      rw [place] at h
      · have ⟨l', p₁, hl, h⟩ := PoolM.bind_eq_ok_iff.1 h
        have ⟨hls, hpp⟩ := PoolM.pure_eq_ok_iff.1 h
        subst hls hpp
        have hslot : ∀ q ∈ Layer.ends (g :: l), p₁.slotOf? q = some (p₁.slotOf q) :=
          fun q hq => Pool.slotOf?_eq_some_slotOf
            (Pool.isSome_slotOf?_of_acquireAll (mapM_acquire_iff.1 ⟨l', hl⟩) hq)
        rw [Layer.eq_map_of_mapM hl]
        refine .block nofun hslot fun q hq r hr hqr => ?_
        exact hp'.slotOf?_injective (hslot q hq) (hqr ▸ hslot r hr)
      · exact nofun
  | release q =>
    have ⟨s, p₁, hq, h⟩ := PoolM.bind_eq_ok_iff.1 h
    have ⟨hls, _⟩ := PoolM.pure_eq_ok_iff.1 h
    subst hls
    exact .release (Pool.release_cases hq).1

end Step

namespace Schedule

variable {p p' : Pool} {ls : List Layer}

theorem place_nil_iff : place ⟨[]⟩ p = .ok ls p' ↔ [] = ls ∧ p = p' := by
  rw [place, List.mapM_nil, pure_bind]
  exact PoolM.pure_eq_ok_iff

theorem place_cons_iff {st : Step} {steps : List Step} :
    place ⟨st :: steps⟩ p = .ok ls p' ↔ ∃ ls₁ p₁ ls₂, st.place p = .ok ls₁ p₁ ∧
      place ⟨steps⟩ p₁ = .ok ls₂ p' ∧ ls₁ ++ ls₂ = ls := by
  rw [place, List.mapM_cons, bind_assoc, PoolM.bind_eq_ok_iff]
  apply exists_congr
  intro ls₁
  apply exists_congr
  intro p₁
  rw [place, exists_and_left]
  apply and_congr_right
  intro _
  simp only [bind_assoc, pure_bind, List.flatten_cons, PoolM.bind_eq_ok_iff, PoolM.pure_eq_ok_iff]
  constructor
  · intro ⟨lss, p₂, hlss, hls, hp⟩
    exact ⟨_, ⟨lss, p₂, hlss, rfl, hp⟩, hls⟩
  · intro ⟨_, ⟨lss, p₂, hlss, hflat, hp⟩, hls⟩
    exact ⟨lss, p₂, hlss, hflat ▸ hls, hp⟩

theorem place_append_iff {steps steps' : List Step} :
    place ⟨steps ++ steps'⟩ p = .ok ls p' ↔ ∃ ls₁ p₁ ls₂, place ⟨steps⟩ p = .ok ls₁ p₁ ∧
      place ⟨steps'⟩ p₁ = .ok ls₂ p' ∧ ls₁ ++ ls₂ = ls := by
  induction steps generalizing p ls with
  | nil =>
    constructor
    · intro h
      exact ⟨[], p, ls, place_nil_iff.2 ⟨rfl, rfl⟩, h, rfl⟩
    · intro ⟨ls₁, p₁, ls₂, hnil, h, hls⟩
      have ⟨hls₁, hp⟩ := place_nil_iff.1 hnil
      subst hls₁ hp hls
      exact h
  | cons st steps ih =>
    rw [List.cons_append, place_cons_iff]
    constructor
    · intro ⟨ls₁, p₁, ls₂, hst, h, hls⟩
      have ⟨ls₃, p₃, ls₄, h₃, h₄, hls'⟩ := ih.1 h
      refine ⟨ls₁ ++ ls₃, p₃, ls₄, place_cons_iff.2 ⟨ls₁, p₁, ls₃, hst, h₃, rfl⟩, h₄, ?_⟩
      rw [List.append_assoc, hls', hls]
    · intro ⟨ls₃, p₃, ls₄, h₃, h₄, hls⟩
      have ⟨ls₁, p₁, ls₂, hst, h, hls'⟩ := place_cons_iff.1 h₃
      refine ⟨ls₁, p₁, ls₂ ++ ls₄, hst, ih.2 ⟨ls₂, p₃, ls₄, h, h₄, rfl⟩, ?_⟩
      rw [← List.append_assoc, hls', hls]

theorem sound_of_place {steps : List Step} (hp : p.Sound) (h : place ⟨steps⟩ p = .ok ls p') :
    p'.Sound := by
  induction steps generalizing p ls with
  | nil => exact (place_nil_iff.1 h).2 ▸ hp
  | cons st steps ih =>
    have ⟨_, _, _, hst, hrest, _⟩ := place_cons_iff.1 h
    exact ih (Step.sound_of_place hp hst) hrest

theorem replay_cons_iff {st : Step} {steps : List Step} :
    replay ⟨st :: steps⟩ p = .ok () p' ↔
      ∃ p₁, st.replay p = .ok () p₁ ∧ replay ⟨steps⟩ p₁ = .ok () p' := by
  have hcons : replay ⟨st :: steps⟩ = st.replay >>= fun _ => replay ⟨steps⟩ := rfl
  rw [hcons, PoolM.bind_eq_ok_iff]
  constructor
  · intro ⟨_, p₁, hst, h⟩
    exact ⟨p₁, hst, h⟩
  · intro ⟨p₁, hst, h⟩
    exact ⟨(), p₁, hst, h⟩

theorem replay_iff {s : Schedule} : s.replay p = .ok () p' ↔ ∃ ls, s.place p = .ok ls p' := by
  cases s with
  | mk steps =>
  induction steps generalizing p with
  | nil =>
    constructor
    · intro h
      exact ⟨[], place_nil_iff.2 ⟨rfl, (PoolM.pure_eq_ok_iff.1 h).2⟩⟩
    · intro ⟨ls, h⟩
      exact PoolM.pure_eq_ok_iff.2 ⟨rfl, (place_nil_iff.1 h).2⟩
  | cons st steps ih =>
    rw [replay_cons_iff]
    constructor
    · intro ⟨p₁, hst, h⟩
      have ⟨ls₁, hls₁⟩ := Step.replay_iff.1 hst
      have ⟨ls₂, hls₂⟩ := ih.1 h
      exact ⟨ls₁ ++ ls₂, place_cons_iff.2 ⟨ls₁, p₁, ls₂, hls₁, hls₂, rfl⟩⟩
    · intro ⟨ls, h⟩
      have ⟨ls₁, p₁, ls₂, hls₁, hls₂, _⟩ := place_cons_iff.1 h
      exact ⟨p₁, Step.replay_iff.2 ⟨ls₁, hls₁⟩, ih.2 ⟨ls₂, hls₂⟩⟩

theorem assignSlots_of_place {s : Schedule} {layers : List Layer}
    (h : s.place (.ofBound s.bound) = .ok layers p) :
    s.assignSlots = .ok ⟨⟨layers⟩, p.opened, layers.length⟩ := by
  rw [assignSlots, h]

theorem exists_place_of_assignSlots {s : Schedule} {out : SlotCircuit}
    (h : s.assignSlots = .ok out) : ∃ layers p, s.place (.ofBound s.bound) = .ok layers p ∧
      out = ⟨⟨layers⟩, p.opened, layers.length⟩ := by
  rw [assignSlots] at h
  split at h
  · rename_i layers p hplace
    cases h
    exact ⟨layers, p, hplace, rfl⟩
  · cases h

theorem place_of_assignSlots {s : Schedule} {out : SlotCircuit} (h : s.assignSlots = .ok out) :
    ∃ p, s.place (.ofBound s.bound) = .ok out.circuit.layers p := by
  obtain ⟨layers, p, hplace, rfl⟩ := exists_place_of_assignSlots h
  exact ⟨p, hplace⟩

theorem place_take {steps : List Step} (h : place ⟨steps⟩ p = .ok ls p')
    (k : Nat) : ∃ ls₁ p₁, place ⟨steps.take k⟩ p = .ok ls₁ p₁ := by
  rw [← List.take_append_drop k steps, place_append_iff] at h
  have ⟨ls₁, p₁, _, h₁, _⟩ := h
  exact ⟨ls₁, p₁, h₁⟩

end Schedule

end QubitReuse
