import QubitReuse.Proofs.Slot.Replay

namespace QubitReuse

def Pool.widen (p : Pool) (bound : Nat) : Pool := { p with bound := bound }

theorem Pool.take?_widen {p p₁ : Pool} {s : Slot} {bound : Nat}
    (hroom : p.capacity ≤ (p.widen bound).capacity) (h : p.take? = some (s, p₁)) :
    (p.widen bound).take? = some (s, p₁.widen bound) := by
  cases Pool.take?_cases h with
  | inl h =>
    obtain ⟨hreturned, hp₁⟩ := h
    have hreturned' : (p.widen bound).returned = s :: p₁.returned := hreturned
    rw [Pool.take?, hreturned', hp₁]
    rfl
  | inr h =>
    obtain ⟨hreturned, hlt, hs, hp₁⟩ := h
    have hreturned' : (p.widen bound).returned = [] := hreturned
    have hlt' : (p.widen bound).opened < (p.widen bound).capacity := Nat.lt_of_lt_of_le hlt hroom
    rw [Pool.take?, hreturned', hs, hp₁]
    dsimp only
    rw [if_pos hlt', ← hreturned]
    rfl

/-- The calls do the same in each pool that has at least as many slots. -/
def PoolM.IgnoresRoom {α : Type} (x : PoolM α) : Prop :=
  ∀ (p p' : Pool) (a : α) (bound : Nat), p.capacity ≤ (p.widen bound).capacity → x p = .ok a p' →
    p'.bound = p.bound ∧ x (p.widen bound) = .ok a (p'.widen bound)

namespace PoolM.IgnoresRoom

variable {α β : Type}

theorem pure (a : α) : IgnoresRoom (pure a : PoolM α) := by
  intro p p' b bound _ h
  have ⟨hb, hp⟩ := pure_eq_ok_iff.1 h
  exact ⟨hp ▸ rfl, pure_eq_ok_iff.2 ⟨hb, hp ▸ rfl⟩⟩

theorem bind {x : PoolM α} {f : α → PoolM β} (hx : x.IgnoresRoom) (hf : ∀ a, (f a).IgnoresRoom) :
    (x >>= f).IgnoresRoom := by
  intro p p' b bound hroom h
  have ⟨a, p₁, ha, hb⟩ := bind_eq_ok_iff.1 h
  have ⟨hp₁, ha'⟩ := hx p p₁ a bound hroom ha
  have hroom₁ : p₁.capacity ≤ (p₁.widen bound).capacity := by
    rw [Pool.capacity, hp₁]
    exact hroom
  have ⟨hp', hb'⟩ := hf a p₁ p' b bound hroom₁ hb
  exact ⟨hp'.trans hp₁, bind_eq_ok_iff.2 ⟨a, p₁.widen bound, ha', hb'⟩⟩

theorem mapM {f : α → PoolM β} (hf : ∀ a, (f a).IgnoresRoom) (l : List α) :
    (l.mapM f).IgnoresRoom := by
  induction l with
  | nil =>
    rw [List.mapM_nil]
    exact .pure []
  | cons a l ih =>
    rw [List.mapM_cons]
    exact (hf a).bind fun b => ih.bind fun bs => .pure (b :: bs)

theorem acquire (q : Qubit) : (Pool.acquire q).IgnoresRoom := by
  intro p p' s bound hroom h
  refine ⟨Pool.bound_of_acquire h, ?_⟩
  cases Pool.acquire_cases h with
  | inl hheld =>
    obtain ⟨hs, hp'⟩ := hheld
    have hs' : (p.widen bound).slotOf? q = some s := hs
    rw [Pool.acquire, hs', hp']
  | inr hnew =>
    obtain ⟨hnone, p₁, htake, hp'⟩ := hnew
    have hnone' : (p.widen bound).slotOf? q = none := hnone
    rw [Pool.acquire, hnone', Pool.take?_widen hroom htake, hp']
    rfl

theorem release (q : Qubit) : (Pool.release q).IgnoresRoom := by
  intro p p' s bound _ h
  have ⟨hs, hp'⟩ := Pool.release_cases h
  have hs' : (p.widen bound).slotOf? q = some s := hs
  refine ⟨Pool.bound_of_release h, ?_⟩
  rw [Pool.release, hs', hp']
  rfl

end PoolM.IgnoresRoom

theorem Gate.ignoresRoom_mapM (g : Gate) : (g.mapM Pool.acquire).IgnoresRoom := by
  cases g with
  | pair a b => exact .bind (.acquire a) fun s => .bind (.acquire b) fun t => .pure (pair s t)
  | release q => exact .bind (.acquire q) fun s => .pure (release s)

theorem Step.ignoresRoom_place (st : Step) : st.place.IgnoresRoom := by
  cases st with
  | block l =>
    cases l with
    | nil => exact .pure []
    | cons g l =>
      exact (PoolM.IgnoresRoom.mapM Gate.ignoresRoom_mapM (g :: l)).bind fun l' => .pure [l']
  | release q => exact .bind (.release q) fun s => .pure [[Gate.release s]]

theorem Schedule.ignoresRoom_place (s : Schedule) : s.place.IgnoresRoom :=
  (PoolM.IgnoresRoom.mapM Step.ignoresRoom_place s.steps).bind fun ls => .pure ls.flatten

theorem Schedule.place_ofBound {s : Schedule} {p : Pool} {ls : List Layer} {n bound : Nat}
    (h : s.place (.ofBound n) = .ok ls p) (hle : n ≤ bound) (hbound : bound < UInt32.size) :
    ∃ p', s.place (.ofBound bound) = .ok ls p' := by
  have hroom : (Pool.ofBound n).capacity ≤ ((Pool.ofBound n).widen bound).capacity := by
    rw [Pool.capacity, Pool.capacity]
    exact Nat.le_trans (Nat.mod_le n _)
      (Nat.le_trans hle (Nat.le_of_eq (Nat.mod_eq_of_lt hbound).symm))
  have ⟨_, hplace⟩ := s.ignoresRoom_place _ _ _ bound hroom h
  exact ⟨p.widen bound, hplace⟩

end QubitReuse
