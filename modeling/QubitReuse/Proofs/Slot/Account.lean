import QubitReuse.Proofs.Slot.Pool
import QubitReuse.Slot.Call

namespace QubitReuse

theorem mem_map_nthSlot {n : Nat} (h : n ≤ UInt32.size) {s : Slot} :
    s ∈ (List.range n).map nthSlot ↔ s.index < n := by
  rw [List.mem_map]
  constructor
  · intro ⟨i, hi, his⟩
    have hi := List.mem_range.1 hi
    rwa [← his, index_nthSlot (Nat.lt_of_lt_of_le hi h)]
  · intro hs
    exact ⟨s.index, List.mem_range.2 hs, Qubit.index_injective (index_nthSlot s.index_lt)⟩

theorem max?_map_range (use peak : Nat → Nat) (n : Nat) (h0 : peak 0 = use 0)
    (h : ∀ k < n, peak (k + 1) = max (peak k) (use (k + 1))) :
    ((List.range (n + 1)).map use).max? = some (peak n) := by
  induction n with
  | zero => simp [h0]
  | succ n ih =>
    have ⟨hmem, hle⟩ := List.max?_eq_some_iff.1 (ih fun k hk => h k (Nat.lt_succ_of_lt hk))
    rw [List.range_succ, List.map_append, List.max?_eq_some_iff, h n (Nat.lt_succ_self n)]
    constructor
    · rcases Nat.le_total (use (n + 1)) (peak n) with hn | hn
      · rw [Nat.max_eq_left hn]
        exact List.mem_append_left _ hmem
      · rw [Nat.max_eq_right hn]
        exact List.mem_append_right _ List.mem_cons_self
    · intro b hb
      rcases List.mem_append.1 hb with hb | hb
      · exact Nat.le_trans (hle b hb) (Nat.le_max_left _ _)
      · rw [List.mem_singleton.1 hb]
        exact Nat.le_max_right _ _

namespace Pool

variable {p p' : Pool} {q r : Qubit} {s : Slot}

theorem free_eq (p : Pool) :
    p.free = p.returned ++ (List.range' p.opened (p.capacity - p.opened)).map nthSlot := by
  rw [free]
  congr 1
  apply List.filterMap_eq_map_iff_forall_eq_some.2
  intro i hi
  have hlt : i < UInt32.size := by
    have hcapacity := p.capacity_lt
    have hi := List.mem_range'_1.1 hi
    omega
  rw [Qubit.ofNat?, if_pos hlt, nthSlot]

theorem take?_of_free {rest : List Slot} (h : p.free = s :: rest) :
    ∃ p₁, p.take? = some (s, p₁) ∧ p₁.free = rest := by
  rw [free_eq] at h
  rw [take?]
  cases hreturned : p.returned with
  | cons t returned =>
    rw [hreturned, List.cons_append] at h
    obtain ⟨rfl, hrest⟩ := List.cons.inj h
    exact ⟨_, rfl, (free_eq _).trans hrest⟩
  | nil =>
    rw [hreturned, List.nil_append] at h
    have hlt : p.opened < p.capacity := by
      apply Nat.lt_of_not_le
      intro hle
      rw [Nat.sub_eq_zero_of_le hle] at h
      cases h
    have hroom : p.capacity - p.opened = p.capacity - (p.opened + 1) + 1 := by omega
    rw [hroom, List.range'_succ] at h
    obtain ⟨rfl, hrest⟩ := List.cons.inj h
    exact ⟨_, if_pos hlt, (free_eq _).trans hrest⟩

theorem acquire_of_free {rest : List Slot} (hq : p.slotOf? q = none) (h : p.free = s :: rest) :
    ∃ p', acquire q p = .ok s p' ∧ p'.free = rest := by
  have ⟨p₁, htake, hfree⟩ := take?_of_free h
  rw [acquire, hq, htake]
  exact ⟨_, rfl, hfree⟩

theorem release_of_held (h : p.slotOf? q = some s) :
    ∃ p', release q p = .ok s p' ∧ p'.free = s :: p.free := by
  rw [release, h]
  exact ⟨_, rfl, rfl⟩

namespace Sound

theorem perm_free (h : p.Sound) :
    (p.free ++ p.held.map Prod.snd).Perm ((List.range p.capacity).map nthSlot) := by
  have hrange : List.range p.opened ++ List.range' p.opened (p.capacity - p.opened) =
      List.range p.capacity := by
    have happend := List.range'_append_1 (s := 0) (m := p.opened) (n := p.capacity - p.opened)
    rwa [Nat.zero_add, Nat.add_sub_cancel' h.opened_le, ← List.range_eq_range',
      ← List.range_eq_range'] at happend
  rw [free_eq, List.append_assoc, ← hrange, List.map_append]
  exact (List.perm_append_comm.append_left _).trans
    (List.append_assoc .. ▸ h.perm.append_right _)

theorem nodup_free_append (h : p.Sound) : (p.free ++ p.held.map Prod.snd).Nodup :=
  h.perm_free.nodup_iff.2 (nodup_map_nthSlot (Nat.le_of_lt p.capacity_lt))

theorem mem_held_iff (h : p.Sound) : s ∈ p.held.map Prod.snd ↔ ∃ q, p.slotOf? q = some s := by
  simp [h.slotOf?_eq_some_iff]

theorem index_lt_capacity_iff (h : p.Sound) :
    s.index < p.capacity ↔ s ∈ p.free ∨ ∃ q, p.slotOf? q = some s := by
  rw [← mem_map_nthSlot (Nat.le_of_lt p.capacity_lt), ← h.perm_free.mem_iff, List.mem_append,
    h.mem_held_iff]

theorem index_lt_opened (h : p.Sound) (hs : p.slotOf? q = some s) : s.index < p.opened := by
  have hsize := Nat.le_trans h.opened_le (Nat.le_of_lt p.capacity_lt)
  rw [← mem_map_nthSlot hsize, ← h.perm.mem_iff, List.mem_append, h.mem_held_iff]
  exact .inr ⟨q, hs⟩

theorem inUse_le_peak (h : p.Sound) : p.inUse ≤ p.peak := by
  rw [inUse, h.peak_eq, h.opened_eq]
  exact Nat.le_add_left _ _

end Sound

theorem peak_of_acquire (h : p.Sound) (hq : acquire q p = .ok s p') :
    p'.peak = max p.peak p'.inUse := by
  rcases acquire_cases hq with ⟨_, rfl⟩ | ⟨_, p₁, htake, rfl⟩
  · exact (Nat.max_eq_left h.inUse_le_peak).symm
  · rw [inUse, lend, (take?_frame htake).1, (take?_frame htake).2.1]
    rfl

theorem inUse_release_le (hq : release q p = .ok s p') : p'.inUse ≤ p.inUse := by
  rw [(release_cases hq).2]
  exact List.length_filter_le _ _

theorem peak_of_release (h : p.Sound) (hq : release q p = .ok s p') :
    p'.peak = max p.peak p'.inUse := by
  have hle := Nat.le_trans (inUse_release_le hq) h.inUse_le_peak
  rw [Nat.max_eq_left hle, (release_cases hq).2]

theorem index_lt_opened_of_acquire (h : p.Sound) (hq : acquire q p = .ok s p') {t : Slot} :
    t.index < p'.opened ↔ t.index < p.opened ∨ t = s := by
  have hs : s.index < p'.opened := by
    apply (h.acquire hq).index_lt_opened (q := q)
    rw [slotOf?_of_acquire hq, if_pos rfl]
  rcases acquire_cases hq with ⟨_, rfl⟩ | ⟨_, p₁, htake, rfl⟩
  · exact ⟨.inl, fun ht => ht.elim id fun hts => hts ▸ hs⟩
  · rcases take?_cases htake with ⟨_, hp₁⟩ | ⟨_, hlt, hs', hp₁⟩
    · have hopened : (p₁.lend q s).opened = p.opened := by rw [hp₁, lend]
      rw [hopened] at hs ⊢
      exact ⟨.inl, fun ht => ht.elim id fun hts => hts ▸ hs⟩
    · have hopened : (p₁.lend q s).opened = p.opened + 1 := by rw [hp₁, lend]
      have hindex : s.index = p.opened := by
        rw [hs', index_nthSlot (Nat.lt_trans hlt p.capacity_lt)]
      have hts : t = s ↔ t.index = p.opened :=
        hindex ▸ ⟨congrArg Qubit.index, Qubit.index_injective⟩
      rw [hopened, hts]
      omega

theorem opened_of_release (hq : release q p = .ok s p') : p'.opened = p.opened := by
  rw [(release_cases hq).2]

theorem Sound.take?_eq_none_iff (h : p.Sound) : p.take? = none ↔ p.inUse = p.capacity := by
  have hopened := h.opened_eq
  have hle := h.opened_le
  rw [take?, inUse]
  split
  · rename_i hreturned
    rw [hreturned, List.length_cons] at hopened
    exact iff_of_false (Option.some_ne_none _) (by omega)
  · rename_i hreturned
    rw [hreturned, List.length_nil] at hopened
    split
    · exact iff_of_false (Option.some_ne_none _) (by omega)
    · exact iff_of_true rfl (by omega)

theorem acquire_eq_error_iff {e : CompressionError} :
    acquire q p = .error e p' ↔
      (p.slotOf? q = none ∧ p.take? = none) ∧ e = .slotsExhausted q p.bound ∧ p' = p := by
  rw [acquire]
  cases p.slotOf? q with
  | some s => simp
  | none =>
    cases p.take? with
    | some x => simp
    | none => simp [eq_comm]

theorem release_eq_error_iff {e : CompressionError} :
    release q p = .error e p' ↔ p.slotOf? q = none ∧ e = .unheldRelease q ∧ p' = p := by
  rw [release]
  cases p.slotOf? q with
  | some s => simp
  | none => simp [eq_comm]

theorem acquire_of_release (hq : release q p = .ok s p') (hr : p'.slotOf? r = none) :
    ∃ p'', acquire r p' = .ok s p'' := by
  have ⟨p₁, hp₁, hfree⟩ := release_of_held (release_cases hq).1
  rw [hq] at hp₁
  cases hp₁
  have ⟨p'', hacquire, _⟩ := acquire_of_free hr hfree
  exact ⟨p'', hacquire⟩

section Calls

variable {calls : List Call} {c : Call}

theorem after_cases (p : Pool) (c : Call) : p.after c = p ∨ ∃ s, c.run p = .ok s (p.after c) := by
  rw [after]
  cases h : c.run p with
  | ok s p' => exact .inr ⟨s, rfl⟩
  | error e p' =>
    left
    cases c with
    | acquire q => exact (acquire_eq_error_iff.1 h).2.2
    | release q => exact (release_eq_error_iff.1 h).2.2

theorem after_induct {P : Pool → Prop} (hp : P p)
    (hacquire : ∀ q s p', acquire q p = .ok s p' → P p')
    (hrelease : ∀ q s p', release q p = .ok s p' → P p') (c : Call) : P (p.after c) := by
  rcases after_cases p c with hsame | ⟨s, hrun⟩
  · exact hsame.symm ▸ hp
  · cases c with
    | acquire q => exact hacquire q s _ hrun
    | release q => exact hrelease q s _ hrun

theorem Sound.after (h : p.Sound) (c : Call) : (p.after c).Sound :=
  after_induct h (fun _ _ _ => h.acquire) (fun _ _ _ => h.release) c

theorem Sound.afterAll (h : p.Sound) (calls : List Call) : (p.afterAll calls).Sound := by
  induction calls generalizing p with
  | nil => exact h
  | cons c calls ih => exact ih (h.after c)

theorem bound_after (p : Pool) (c : Call) : (p.after c).bound = p.bound :=
  after_induct (P := (·.bound = p.bound)) rfl (fun _ _ _ => bound_of_acquire)
    (fun _ _ _ => bound_of_release) c

theorem bound_afterAll (p : Pool) (calls : List Call) : (p.afterAll calls).bound = p.bound := by
  induction calls generalizing p with
  | nil => rfl
  | cons c calls ih => exact (ih (p.after c)).trans (bound_after p c)

theorem Sound.peak_after (h : p.Sound) (c : Call) :
    (p.after c).peak = max p.peak (p.after c).inUse :=
  after_induct (P := fun p' => p'.peak = max p.peak p'.inUse)
    (Nat.max_eq_left h.inUse_le_peak).symm (fun _ _ _ => peak_of_acquire h)
    (fun _ _ _ => peak_of_release h) c

theorem Sound.index_lt_opened_after (h : p.Sound) (c : Call) :
    s.index < (p.after c).opened ↔
      s.index < p.opened ∨ ∃ q p', c = .acquire q ∧ Pool.acquire q p = .ok s p' := by
  cases c with
  | acquire q =>
    rw [Pool.after, Call.run]
    cases hq : Pool.acquire q p with
    | ok t p' => simp [index_lt_opened_of_acquire h hq, hq, eq_comm]
    | error e p' => simp [(acquire_eq_error_iff.1 hq).2.2, hq]
  | release q =>
    rw [Pool.after, Call.run]
    cases hq : Pool.release q p with
    | ok t p' => simp [opened_of_release hq]
    | error e p' => simp [(release_eq_error_iff.1 hq).2.2]

theorem handsOut_cons_iff : p.HandsOut (c :: calls) s ↔
    (∃ q p', c = .acquire q ∧ acquire q p = .ok s p') ∨ (p.after c).HandsOut calls s := by
  constructor
  · rintro ⟨before, q, rest, p', hcalls, hq⟩
    cases before with
    | nil => exact .inl ⟨q, p', (List.cons.inj hcalls).1, hq⟩
    | cons c' before =>
      obtain ⟨rfl, htail⟩ := List.cons.inj hcalls
      exact .inr ⟨before, q, rest, p', htail, hq⟩
  · rintro (⟨q, p', rfl, hq⟩ | ⟨before, q, rest, p', rfl, hq⟩)
    · exact ⟨[], q, calls, p', rfl, hq⟩
    · exact ⟨c :: before, q, rest, p', rfl, hq⟩

theorem Sound.index_lt_opened_afterAll (h : p.Sound) (calls : List Call) :
    s.index < (p.afterAll calls).opened ↔ s.index < p.opened ∨ p.HandsOut calls s := by
  induction calls generalizing p with
  | nil => simp [Pool.afterAll, HandsOut]
  | cons c calls ih =>
    rw [handsOut_cons_iff, ← or_assoc, ← h.index_lt_opened_after c]
    exact ih (h.after c)

theorem afterAll_take_succ (p : Pool) {k : Nat} (hk : k < calls.length) :
    p.afterAll (calls.take (k + 1)) = (p.afterAll (calls.take k)).after calls[k] := by
  rw [afterAll, List.take_succ_eq_append_getElem hk, List.foldl_append]
  rfl

theorem max?_inUse_afterAll (bound : Nat) (calls : List Call) :
    ((List.range (calls.length + 1)).map
      fun k => ((ofBound bound).afterAll (calls.take k)).inUse).max? =
        some ((ofBound bound).afterAll calls).peak := by
  have hpeak := max?_map_range (fun k => ((ofBound bound).afterAll (calls.take k)).inUse)
    (fun k => ((ofBound bound).afterAll (calls.take k)).peak) calls.length rfl ?_
  · rwa [List.take_length] at hpeak
  · intro k hk
    rw [afterAll_take_succ _ hk]
    exact ((sound_ofBound bound).afterAll _).peak_after _

/-- What is known of a pool with `bound` slots after these calls, and of the call that comes next. -/
structure Account (bound : Nat) (calls : List Call) (p : Pool) : Prop where
  nodup_free : p.free.Nodup
  index_lt_iff : ∀ s : Slot, s.index < bound ↔ s ∈ p.free ∨ ∃ q, p.slotOf? q = some s
  free_not_held : ∀ s ∈ p.free, ∀ q, p.slotOf? q ≠ some s
  held_by_one : ∀ q r s, p.slotOf? q = some s → p.slotOf? r = some s → q = r
  handsOut_iff : ∀ s, (ofBound bound).HandsOut calls s ↔ s.index < p.opened
  peak : ((List.range (calls.length + 1)).map
    fun k => ((ofBound bound).afterAll (calls.take k)).inUse).max? = some p.peak
  opened_eq_peak : p.opened = p.peak
  peak_le : p.peak ≤ bound
  acquire_held : ∀ q s, p.slotOf? q = some s → acquire q p = .ok s p
  acquire_free : ∀ q s rest, p.slotOf? q = none → p.free = s :: rest →
    ∃ p', acquire q p = .ok s p' ∧ p'.free = rest
  release_held : ∀ q s, p.slotOf? q = some s →
    ∃ p', release q p = .ok s p' ∧ p'.free = s :: p.free
  acquire_fails_iff : ∀ q e p', acquire q p = .error e p' ↔
    (p.slotOf? q = none ∧ p.inUse = bound) ∧ e = .slotsExhausted q bound ∧ p' = p
  release_fails_iff : ∀ q e p', release q p = .error e p' ↔
    p.slotOf? q = none ∧ e = .unheldRelease q ∧ p' = p
  acquire_released : ∀ q r s p', release q p = .ok s p' → p'.slotOf? r = none →
    ∃ p'', acquire r p' = .ok s p''

theorem account_afterAll {bound : Nat} (hbound : bound < UInt32.size) (calls : List Call) :
    Account bound calls ((ofBound bound).afterAll calls) := by
  have h := (sound_ofBound bound).afterAll calls
  have hpeak := max?_inUse_afterAll bound calls
  have hhands := fun s => (sound_ofBound bound).index_lt_opened_afterAll (s := s) calls
  have hsame := bound_afterAll (ofBound bound) calls
  generalize (ofBound bound).afterAll calls = p at *
  change p.bound = bound at hsame
  have hcapacity : p.capacity = bound := by rw [capacity, hsame, Nat.mod_eq_of_lt hbound]
  have ⟨hfree, _, hdisjoint⟩ := List.nodup_append.1 h.nodup_free_append
  constructor
  case nodup_free => exact hfree
  case index_lt_iff =>
    intro s
    rw [← hcapacity, h.index_lt_capacity_iff]
  case free_not_held =>
    intro s hs q hq
    exact hdisjoint s hs s (h.mem_held_iff.2 ⟨q, hq⟩) rfl
  case held_by_one => exact fun q r s => h.slotOf?_injective
  case handsOut_iff => exact fun s => ((hhands s).trans (or_iff_right (Nat.not_lt_zero _))).symm
  case peak => exact hpeak
  case opened_eq_peak => exact h.peak_eq.symm
  case peak_le =>
    rw [h.peak_eq, ← hcapacity]
    exact h.opened_le
  case acquire_held =>
    intro q s hq
    rw [acquire, hq]
  case acquire_free => exact fun q s rest => acquire_of_free
  case release_held => exact fun q s => release_of_held
  case acquire_fails_iff =>
    intro q e p'
    rw [acquire_eq_error_iff, h.take?_eq_none_iff, hcapacity, hsame]
  case release_fails_iff => exact fun q e p' => release_eq_error_iff
  case acquire_released => exact fun q r s p' => acquire_of_release

theorem account_afterAll_two :
    ∃ p, Account 2 [.acquire ⟨5⟩, .acquire ⟨7⟩, .acquire ⟨9⟩, .release ⟨5⟩, .release ⟨5⟩, .acquire ⟨9⟩] p ∧
      p.slotOf? ⟨9⟩ = some ⟨0⟩ ∧ p.opened = 2 ∧
      acquire ⟨5⟩ p = .error (.slotsExhausted ⟨5⟩ 2) p ∧
      release ⟨5⟩ p = .error (.unheldRelease ⟨5⟩) p := by
  have hbound : 2 < UInt32.size := by decide
  have h := account_afterAll hbound
    [.acquire ⟨5⟩, .acquire ⟨7⟩, .acquire ⟨9⟩, .release ⟨5⟩, .release ⟨5⟩, .acquire ⟨9⟩]
  refine ⟨_, h, rfl, rfl, ?_, ?_⟩
  · exact (h.acquire_fails_iff _ _ _).2 ⟨⟨rfl, rfl⟩, rfl, rfl⟩
  · exact (h.release_fails_iff _ _ _).2 ⟨rfl, rfl, rfl⟩

end Calls

end Pool

end QubitReuse
