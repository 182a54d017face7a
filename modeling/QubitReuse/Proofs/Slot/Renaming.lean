import QubitReuse.Proofs.Slot.Placing

namespace QubitReuse

variable {f : Qubit → Qubit} {used : Qubit → Prop}

namespace Pool

/-- The same slots are lent, to qubits and to their new names. Nothing is said of the bounds: they
come from the largest name. -/
structure Renamed (f : Qubit → Qubit) (used : Qubit → Prop) (p p' : Pool) : Prop where
  returned : p'.returned = p.returned
  opened : p'.opened = p.opened
  held : p'.held = p.held.map fun x => (f x.1, x.2)
  used : ∀ x ∈ p.held, used x.1

namespace Renamed

variable {p p' p₁ p₁' : Pool} {q : Qubit} {s s' : Slot}

theorem ofBound (bound bound' : Nat) : Renamed f used (ofBound bound) (ofBound bound') :=
  ⟨rfl, rfl, rfl, nofun⟩

theorem slotOf? (h : Renamed f used p p')
    (hinj : ∀ q r, used q → used r → f q = f r → q = r) (hq : used q) :
    p'.slotOf? (f q) = p.slotOf? q := by
  rw [Pool.slotOf?, h.held]
  exact lookup_map_fst fun x hx => hinj q x.1 hq (h.used x hx)

theorem take? (h : Renamed f used p p') (ht : p.take? = some (s, p₁))
    (ht' : p'.take? = some (s', p₁')) : s' = s ∧ Renamed f used p₁ p₁' := by
  have hheld : p₁'.held = p₁.held.map fun x => (f x.1, x.2) := by
    rw [(take?_frame ht).1, (take?_frame ht').1, h.held]
  have hused : ∀ x ∈ p₁.held, used x.1 := (take?_frame ht).1 ▸ h.used
  have hreturned := h.returned
  rcases take?_cases ht with ⟨hp, hp₁⟩ | ⟨hp, _, hs, hp₁⟩
  · rcases take?_cases ht' with ⟨hp', hp₁'⟩ | ⟨hp', _⟩
    · rw [hp, hp', List.cons.injEq] at hreturned
      refine ⟨hreturned.1, hreturned.2, ?_, hheld, hused⟩
      rw [hp₁, hp₁', h.opened]
    · rw [hp, hp'] at hreturned
      cases hreturned
  · rcases take?_cases ht' with ⟨hp', _⟩ | ⟨hp', _, hs', hp₁'⟩
    · rw [hp, hp'] at hreturned
      cases hreturned
    · refine ⟨by rw [hs, hs', h.opened], ?_, ?_, hheld, hused⟩
      · rw [hp₁, hp₁', hreturned]
      · rw [hp₁, hp₁', h.opened]

theorem acquire (h : Renamed f used p p')
    (hinj : ∀ q r, used q → used r → f q = f r → q = r) (hq : used q)
    (ha : Pool.acquire q p = .ok s p₁) (ha' : Pool.acquire (f q) p' = .ok s' p₁') :
    s' = s ∧ Renamed f used p₁ p₁' := by
  have hslot := h.slotOf? hinj hq
  rcases acquire_cases ha with ⟨hs, rfl⟩ | ⟨hnone, p₂, ht, rfl⟩
  · rcases acquire_cases ha' with ⟨hs', rfl⟩ | ⟨hnone', _⟩
    · rw [hs', hs] at hslot
      exact ⟨Option.some.inj hslot, h⟩
    · rw [hnone', hs] at hslot
      cases hslot
  · rcases acquire_cases ha' with ⟨hs', _⟩ | ⟨_, p₂', ht', rfl⟩
    · rw [hs', hnone] at hslot
      cases hslot
    · obtain ⟨rfl, h₂⟩ := h.take? ht ht'
      refine ⟨rfl, h₂.returned, h₂.opened, ?_, ?_⟩
      · rw [lend, lend, h₂.held, List.map_cons]
      · exact List.forall_mem_cons.2 ⟨hq, h₂.used⟩

theorem release (h : Renamed f used p p')
    (hinj : ∀ q r, used q → used r → f q = f r → q = r) (hq : used q)
    (hr : Pool.release q p = .ok s p₁) (hr' : Pool.release (f q) p' = .ok s' p₁') :
    s' = s ∧ Renamed f used p₁ p₁' := by
  have hslot := h.slotOf? hinj hq
  obtain ⟨hs, rfl⟩ := release_cases hr
  obtain ⟨hs', rfl⟩ := release_cases hr'
  rw [hs', hs, Option.some.injEq] at hslot
  refine ⟨hslot, ?_, h.opened, ?_, ?_⟩
  · rw [hslot, h.returned]
  · rw [h.held, List.filter_map]
    apply congrArg (List.map _)
    apply List.filter_congr
    intro x hx
    have hx : f x.1 = f q ↔ x.1 = q := ⟨hinj x.1 q (h.used x hx) hq, congrArg f⟩
    simp [hx]
  · intro x hx
    exact h.used x (List.mem_filter.1 hx).1

end Renamed

end Pool

def PoolM.Agrees (f : Qubit → Qubit) (used : Qubit → Prop) {α : Type} (x x' : PoolM α) : Prop :=
  ∀ p p' a a' p₁ p₁', p.Renamed f used p' → x p = .ok a p₁ → x' p' = .ok a' p₁' →
    a' = a ∧ p₁.Renamed f used p₁'

namespace PoolM.Agrees

variable {α β : Type}

theorem pure (a : α) : Agrees f used (pure a) (pure a) := by
  intro p p' b b' p₁ p₁' h hb hb'
  obtain ⟨rfl, rfl⟩ := pure_eq_ok_iff.1 hb
  obtain ⟨rfl, rfl⟩ := pure_eq_ok_iff.1 hb'
  exact ⟨rfl, h⟩

theorem bind {x x' : PoolM α} {g g' : α → PoolM β} (hx : Agrees f used x x')
    (hg : ∀ a, Agrees f used (g a) (g' a)) : Agrees f used (x >>= g) (x' >>= g') := by
  intro p p' b b' p₁ p₁' h hb hb'
  obtain ⟨a, p₂, ha, hb⟩ := bind_eq_ok_iff.1 hb
  obtain ⟨a', p₂', ha', hb'⟩ := bind_eq_ok_iff.1 hb'
  obtain ⟨rfl, h₂⟩ := hx p p' a a' p₂ p₂' h ha ha'
  exact hg a' p₂ p₂' b b' p₁ p₁' h₂ hb hb'

theorem mapM {l : List α} {g g' : α → PoolM β} (h : ∀ a ∈ l, Agrees f used (g a) (g' a)) :
    Agrees f used (l.mapM g) (l.mapM g') := by
  induction l with
  | nil =>
    rw [List.mapM_nil, List.mapM_nil]
    exact .pure []
  | cons a l ih =>
    have ⟨ha, hl⟩ := List.forall_mem_cons.1 h
    rw [List.mapM_cons, List.mapM_cons]
    exact ha.bind fun b => (ih hl).bind fun bs => .pure (b :: bs)

end PoolM.Agrees

section

variable (hinj : ∀ q r, used q → used r → f q = f r → q = r)

include hinj

theorem Gate.agrees_mapM {g : Gate} (hg : ∀ q, g.Touches q → used q) :
    PoolM.Agrees f used (g.mapM Pool.acquire) ((g.map f).mapM Pool.acquire) := by
  have hacquire : ∀ q, g.Touches q → PoolM.Agrees f used (Pool.acquire q) (Pool.acquire (f q)) :=
    fun q hq _ _ _ _ _ _ h => h.acquire hinj (hg q hq)
  cases g with
  | pair a b =>
    exact (hacquire a List.mem_cons_self).bind fun s =>
      (hacquire b (List.mem_cons_of_mem _ List.mem_cons_self)).bind fun t => .pure (pair s t)
  | release q => exact (hacquire q List.mem_cons_self).bind fun s => .pure (release s)

theorem Step.agrees_place {st : Step} (hst : ∀ q ∈ st.qubits, used q) :
    PoolM.Agrees f used st.place (st.map f).place := by
  cases st with
  | block l =>
    cases l with
    | nil => exact .pure []
    | cons g l =>
      have hgates : ∀ h ∈ g :: l, PoolM.Agrees f used (h.mapM Pool.acquire)
          ((h.map f).mapM Pool.acquire) := by
        intro h hh
        exact Gate.agrees_mapM hinj fun q hq => hst q (Layer.mem_ends.2 ⟨h, hh, hq⟩)
      -- A call per old name, of the gate with its new name, is a call per gate of the new layer.
      have hmap : (g :: l).mapM (fun h => (h.map f).mapM Pool.acquire) =
          ((g :: l).map (Gate.map f)).mapM (·.mapM Pool.acquire) := by
        rw [List.mapM_map]
        rfl
      have hblock := PoolM.Agrees.mapM hgates
      rw [hmap] at hblock
      exact hblock.bind fun l' => .pure [l']
  | release q =>
    have hrelease : PoolM.Agrees f used (Pool.release q) (Pool.release (f q)) :=
      fun _ _ _ _ _ _ h => h.release hinj (hst q List.mem_cons_self)
    exact hrelease.bind fun s => .pure [[Gate.release s]]

end

namespace Schedule

theorem agrees_place {s : Schedule}
    (hinj : ∀ q r, q ∈ s.qubits → r ∈ s.qubits → f q = f r → q = r) :
    PoolM.Agrees f (· ∈ s.qubits) s.place (s.map f).place := by
  have hsteps : ∀ st ∈ s.steps, PoolM.Agrees f (· ∈ s.qubits) st.place (st.map f).place := by
    intro st hst
    exact Step.agrees_place hinj fun q hq => mem_qubits.2 ⟨st, hst, hq⟩
  have hplace := (PoolM.Agrees.mapM hsteps).bind fun ls => .pure ls.flatten
  rw [place, place, map, List.mapM_map]
  exact hplace

theorem assignSlots_map {s : Schedule} {out out' : SlotCircuit}
    (hinj : ∀ q r, q ∈ s.qubits → r ∈ s.qubits → f q = f r → q = r)
    (h : s.assignSlots = .ok out) (h' : (s.map f).assignSlots = .ok out') : out' = out := by
  obtain ⟨ls, p, hplace, rfl⟩ := exists_place_of_assignSlots h
  obtain ⟨ls', p', hplace', rfl⟩ := exists_place_of_assignSlots h'
  obtain ⟨rfl, hp⟩ := agrees_place hinj _ _ _ _ _ _ (.ofBound _ _) hplace hplace'
  rw [hp.opened]

end Schedule

end QubitReuse
