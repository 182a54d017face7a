import Mathlib.Data.List.Nodup
import QubitReuse.Proofs.Association
import QubitReuse.Slot.Pool

/-!
The pool between calls. The opened slots are those with the least ids; each is held by one qubit or
has come back, and as many are opened as were ever held at once.
-/

namespace QubitReuse

def nthSlot (n : Nat) : Slot := ⟨n.toUInt32⟩

theorem index_nthSlot {n : Nat} (h : n < UInt32.size) : (nthSlot n).index = n :=
  Nat.mod_eq_of_lt h

theorem nodup_map_nthSlot {n : Nat} (h : n ≤ UInt32.size) :
    ((List.range n).map nthSlot).Nodup := by
  apply List.Nodup.map_on _ List.nodup_range
  intro i hi j hj hij
  have hi := Nat.lt_of_lt_of_le (List.mem_range.1 hi) h
  have hj := Nat.lt_of_lt_of_le (List.mem_range.1 hj) h
  rw [← index_nthSlot hi, hij, index_nthSlot hj]

theorem lookup_filter_ne {held : List (Qubit × Slot)} {q r : Qubit} :
    (held.filter (·.1 ≠ q)).lookup r = if r = q then none else held.lookup r := by
  induction held with
  | nil => simp
  | cons x held ih =>
    rw [List.filter_cons]
    by_cases hx : x.1 = q
    · rw [if_neg (by simpa using hx), ih, List.lookup_cons]
      by_cases hr : r = q
      · rw [if_pos hr, if_pos hr]
      · rw [if_neg hr, if_neg hr, beq_eq_false_iff_ne.2 (hx ▸ hr)]
    · rw [if_pos (by simpa using hx), List.lookup_cons, List.lookup_cons, ih]
      by_cases hr : r = x.1
      · simp only [hr, beq_self_eq_true, if_neg hx]
      · simp only [beq_eq_false_iff_ne.2 hr]

theorem perm_cons_filter_ne {held : List (Qubit × Slot)} {q : Qubit} {s : Slot}
    (h : (held.map Prod.fst).Nodup) (hq : (q, s) ∈ held) :
    ((q, s) :: held.filter (·.1 ≠ q)).Perm held := by
  have hfilter : held.filter (·.1 ≠ q) = held.erase (q, s) := by
    rw [h.of_map.erase_eq_filter]
    apply List.filter_congr
    intro x hx
    apply Bool.eq_iff_iff.2
    rw [decide_eq_true_eq, bne_iff_ne]
    apply not_congr
    constructor
    · intro hxq
      exact List.inj_on_of_nodup_map h hx hq hxq
    · intro hxq
      exact congrArg Prod.fst hxq
  rw [hfilter]
  exact (List.perm_cons_erase hq).symm

namespace Pool

structure Sound (p : Pool) : Prop where
  nodup_keys : (p.held.map Prod.fst).Nodup
  opened_le : p.opened ≤ p.capacity
  peak_eq : p.peak = p.opened
  perm : (p.returned ++ p.held.map Prod.snd).Perm ((List.range p.opened).map nthSlot)

variable {p p' : Pool} {q r : Qubit} {s : Slot}

theorem capacity_lt (p : Pool) : p.capacity < UInt32.size := Nat.mod_lt _ (by decide)

theorem sound_ofBound (bound : Nat) : (ofBound bound).Sound :=
  ⟨.nil, Nat.zero_le _, rfl, .refl _⟩

namespace Sound

theorem nodup_slots (h : p.Sound) : (p.returned ++ p.held.map Prod.snd).Nodup :=
  h.perm.nodup_iff.2
    (nodup_map_nthSlot (Nat.le_of_lt (Nat.lt_of_le_of_lt h.opened_le p.capacity_lt)))

theorem opened_eq (h : p.Sound) : p.opened = p.returned.length + p.held.length := by
  have hlen := h.perm.length_eq
  rw [List.length_append, List.length_map, List.length_map, List.length_range] at hlen
  exact hlen.symm

theorem slotOf?_eq_some_iff (h : p.Sound) : p.slotOf? q = some s ↔ (q, s) ∈ p.held :=
  lookup_eq_some_iff h.nodup_keys

theorem not_mem_keys (h : p.Sound) (hnone : p.slotOf? q = none) : q ∉ p.held.map Prod.fst := by
  intro hmem
  have ⟨x, hx, hxq⟩ := List.mem_map.1 hmem
  rw [← hxq, h.slotOf?_eq_some_iff.2 hx] at hnone
  cases hnone

theorem slotOf?_injective (h : p.Sound) (hq : p.slotOf? q = some s) (hr : p.slotOf? r = some s) :
    q = r := by
  have hnodup := (List.nodup_append.1 h.nodup_slots).2.1
  have hqr := List.inj_on_of_nodup_map hnodup (h.slotOf?_eq_some_iff.1 hq)
    (h.slotOf?_eq_some_iff.1 hr) rfl
  exact congrArg Prod.fst hqr

end Sound

theorem take?_cases {p₁ : Pool} (h : p.take? = some (s, p₁)) :
    (p.returned = s :: p₁.returned ∧ p₁ = { p with returned := p₁.returned }) ∨
    (p.returned = [] ∧ p.opened < p.capacity ∧ s = nthSlot p.opened ∧
      p₁ = { p with opened := p.opened + 1 }) := by
  rw [take?] at h
  split at h
  · rename_i hr
    cases h
    exact .inl ⟨hr, rfl⟩
  · rename_i hr
    split at h
    · rename_i hlt
      cases h
      exact .inr ⟨hr, hlt, rfl, rfl⟩
    · cases h

theorem acquire_cases (h : acquire q p = .ok s p') :
    (p.slotOf? q = some s ∧ p' = p) ∨
    (p.slotOf? q = none ∧ ∃ p₁, p.take? = some (s, p₁) ∧ p' = p₁.lend q s) := by
  rw [acquire] at h
  split at h
  · rename_i hs
    cases h
    exact .inl ⟨hs, rfl⟩
  · rename_i hnone
    split at h
    · rename_i p₁ htake
      cases h
      exact .inr ⟨hnone, p₁, htake, rfl⟩
    · cases h

theorem release_cases (h : release q p = .ok s p') :
    p.slotOf? q = some s ∧
      p' = { p with returned := s :: p.returned, held := p.held.filter (·.1 ≠ q) } := by
  rw [release] at h
  split at h
  · rename_i hs
    cases h
    exact ⟨hs, rfl⟩
  · cases h

theorem slotOf?_lend : (p.lend q s).slotOf? r = if r = q then some s else p.slotOf? r := by
  rw [slotOf?, lend, List.lookup_cons]
  by_cases h : r = q
  · rw [h, beq_self_eq_true, if_pos rfl]
  · rw [beq_eq_false_iff_ne.2 h, if_neg h]
    rfl

theorem take?_frame {p₁ : Pool} (h : p.take? = some (s, p₁)) :
    p₁.held = p.held ∧ p₁.peak = p.peak ∧ p₁.bound = p.bound := by
  cases take?_cases h with
  | inl h => exact h.2 ▸ ⟨rfl, rfl, rfl⟩
  | inr h => exact h.2.2.2 ▸ ⟨rfl, rfl, rfl⟩

theorem slotOf?_of_take? {p₁ : Pool} (h : p.take? = some (s, p₁)) : p₁.slotOf? r = p.slotOf? r := by
  rw [slotOf?, slotOf?, (take?_frame h).1]

theorem slotOf?_of_acquire (h : acquire q p = .ok s p') :
    p'.slotOf? r = if r = q then some s else p.slotOf? r := by
  cases acquire_cases h with
  | inl h =>
    rw [h.2]
    split
    · rename_i hr
      rw [hr, h.1]
    · rfl
  | inr h =>
    have ⟨_, p₁, htake, hp'⟩ := h
    rw [hp', slotOf?_lend, slotOf?_of_take? htake]

theorem slotOf?_of_release (h : release q p = .ok s p') :
    p'.slotOf? r = if r = q then none else p.slotOf? r := by
  rw [(release_cases h).2]
  exact lookup_filter_ne

theorem bound_of_acquire (h : acquire q p = .ok s p') : p'.bound = p.bound := by
  cases acquire_cases h with
  | inl h => rw [h.2]
  | inr h =>
    have ⟨_, p₁, htake, hp'⟩ := h
    rw [hp', lend]
    exact (take?_frame htake).2.2

theorem bound_of_release (h : release q p = .ok s p') : p'.bound = p.bound := by
  rw [(release_cases h).2]

theorem Sound.slotOf?_ne_of_take? {p₁ : Pool} (h : p.Sound) (htake : p.take? = some (s, p₁)) :
    p.slotOf? r ≠ some s := by
  intro hr
  have hs : s ∈ p.held.map Prod.snd := List.mem_map_of_mem (h.slotOf?_eq_some_iff.1 hr)
  cases take?_cases htake with
  | inl ht =>
    have hdisjoint := (List.nodup_append.1 h.nodup_slots).2.2
    exact hdisjoint s (ht.1 ▸ List.mem_cons_self) s hs rfl
  | inr ht =>
    have ⟨_, hlt, hs', _⟩ := ht
    have ⟨i, hi, his⟩ := List.mem_map.1 (h.perm.mem_iff.1 (List.mem_append_right _ hs))
    have hi := List.mem_range.1 hi
    have hsize := Nat.lt_trans hlt p.capacity_lt
    have hindex := index_nthSlot (Nat.lt_trans hi hsize)
    rw [his, hs', index_nthSlot hsize] at hindex
    omega

theorem Sound.acquire (h : p.Sound) (hq : acquire q p = .ok s p') : p'.Sound := by
  cases acquire_cases hq with
  | inl hq => exact hq.2 ▸ h
  | inr hq =>
    have ⟨hnone, p₁, htake, hp'⟩ := hq
    have hnodup : ((q, s) :: p.held |>.map Prod.fst).Nodup :=
      List.nodup_cons.2 ⟨h.not_mem_keys hnone, h.nodup_keys⟩
    have hopened := h.opened_eq
    have hpeak := h.peak_eq
    subst hp'
    cases take?_cases htake with
    | inl ht =>
      have ⟨hreturned, hp₁⟩ := ht
      rw [hp₁]
      refine ⟨hnodup, h.opened_le, ?_, ?_⟩
      · change max p.peak (p.held.length + 1) = p.opened
        rw [hreturned, List.length_cons] at hopened
        omega
      · have hperm := h.perm
        rw [hreturned] at hperm
        exact List.perm_middle.trans hperm
    | inr ht =>
      have ⟨hreturned, hlt, hs, hp₁⟩ := ht
      rw [hp₁]
      refine ⟨hnodup, hlt, ?_, ?_⟩
      · change max p.peak (p.held.length + 1) = p.opened + 1
        rw [hreturned, List.length_nil] at hopened
        omega
      · have hperm := h.perm
        rw [hreturned] at hperm
        change (p.returned ++ s :: p.held.map Prod.snd).Perm
          ((List.range (p.opened + 1)).map nthSlot)
        rw [hreturned, hs, List.range_succ, List.map_append]
        exact (hperm.cons _).trans (List.perm_append_singleton _ _).symm

theorem Sound.release (h : p.Sound) (hq : release q p = .ok s p') : p'.Sound := by
  have ⟨hs, hp'⟩ := release_cases hq
  subst hp'
  refine ⟨h.nodup_keys.sublist (List.filter_sublist.map _), h.opened_le, h.peak_eq, ?_⟩
  refine .trans ?_ h.perm
  have hheld : ((q, s) :: p.held.filter (·.1 ≠ q)).Perm p.held :=
    perm_cons_filter_ne h.nodup_keys (h.slotOf?_eq_some_iff.1 hs)
  exact List.perm_middle.symm.trans ((hheld.map Prod.snd).append_left _)

end Pool

end QubitReuse
