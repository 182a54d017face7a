import QubitReuse.Qubit

namespace QubitReuse

structure QubitSet where
  toList : List Qubit
  ascending : toList.Pairwise (· < ·)
  deriving DecidableEq

namespace QubitSet

def empty : QubitSet := ⟨[], .nil⟩

instance : Inhabited QubitSet := ⟨empty⟩

instance : Membership Qubit QubitSet := ⟨fun s q => q ∈ s.toList⟩

instance (q : Qubit) (s : QubitSet) : Decidable (q ∈ s) :=
  inferInstanceAs (Decidable (q ∈ s.toList))

instance : HasSubset QubitSet := ⟨fun s t => ∀ q ∈ s.toList, q ∈ t⟩

instance (s t : QubitSet) : Decidable (s ⊆ t) :=
  inferInstanceAs (Decidable (∀ q ∈ s.toList, q ∈ t))

def size (s : QubitSet) : Nat := s.toList.length

def isEmpty (s : QubitSet) : Bool := s.toList.isEmpty

def max? (s : QubitSet) : Option Qubit := s.toList.getLast?

def bound (s : QubitSet) : Nat := s.max?.elim 0 (·.index + 1)

def place (q : Qubit) : List Qubit → List Qubit
  | [] => [q]
  | p :: ps => if q < p then q :: p :: ps else if q = p then p :: ps else p :: place q ps

@[simp] theorem mem_place {p q : Qubit} {ps : List Qubit} : p ∈ place q ps ↔ p = q ∨ p ∈ ps := by
  induction ps with
  | nil => simp [place]
  | cons r ps ih =>
    simp only [place]
    split
    · simp
    · split
      · subst_vars
        simp
      · simp [ih, or_left_comm]

theorem pairwise_place {q : Qubit} {ps : List Qubit} (h : ps.Pairwise (· < ·)) :
    (place q ps).Pairwise (· < ·) := by
  induction ps with
  | nil => simp [place]
  | cons p ps ih =>
    have ⟨hp, hps⟩ := List.pairwise_cons.1 h
    simp only [place]
    split
    · rename_i hq
      refine List.pairwise_cons.2 ⟨fun r hr => ?_, h⟩
      rcases List.mem_cons.1 hr with rfl | hr
      · exact hq
      · exact Qubit.lt_trans hq (hp r hr)
    · split
      · exact h
      · rename_i hq hne
        refine List.pairwise_cons.2 ⟨fun r hr => ?_, ih hps⟩
        rcases mem_place.1 hr with rfl | hr
        · exact Qubit.lt_of_not_lt hq hne
        · exact hp r hr

def insert (s : QubitSet) (q : Qubit) : QubitSet := ⟨place q s.toList, pairwise_place s.ascending⟩

def insertNew (s : QubitSet) (q : Qubit) : Bool × QubitSet := (decide (q ∉ s), s.insert q)

def single (q : Qubit) : QubitSet := empty.insert q

def ofList (qs : List Qubit) : QubitSet := qs.foldl insert empty

def map (f : Qubit → Qubit) (s : QubitSet) : QubitSet := ofList (s.toList.map f)

instance : Union QubitSet := ⟨fun s t => t.toList.foldl insert s⟩

theorem mem_def {q : Qubit} {s : QubitSet} : q ∈ s ↔ q ∈ s.toList := Iff.rfl

@[simp] theorem not_mem_empty (q : Qubit) : q ∉ empty := List.not_mem_nil

@[simp] theorem mem_insert {p q : Qubit} {s : QubitSet} : p ∈ s.insert q ↔ p = q ∨ p ∈ s :=
  mem_place

@[simp] theorem mem_single {p q : Qubit} : p ∈ single q ↔ p = q := by simp [single]

theorem mem_foldl_insert {p : Qubit} {qs : List Qubit} {s : QubitSet} :
    p ∈ qs.foldl insert s ↔ p ∈ qs ∨ p ∈ s := by
  induction qs generalizing s with
  | nil => simp
  | cons q qs ih => simp [ih, or_left_comm, or_assoc]

@[simp] theorem mem_ofList {p : Qubit} {qs : List Qubit} : p ∈ ofList qs ↔ p ∈ qs := by
  simp [ofList, mem_foldl_insert]

@[simp] theorem mem_union {q : Qubit} {s t : QubitSet} : q ∈ s ∪ t ↔ q ∈ s ∨ q ∈ t :=
  mem_foldl_insert.trans or_comm

theorem nodup (s : QubitSet) : s.toList.Nodup := by
  apply s.ascending.imp
  intro p q h hpq
  exact Qubit.lt_irrefl q (hpq ▸ h)

theorem size_ofList {qs : List Qubit} (h : qs.Nodup) : (ofList qs).size = qs.length :=
  ((List.perm_ext_iff_of_nodup (nodup _) h).2 fun _ => mem_ofList).length_eq

theorem eq_of_mem_iff {s t : QubitSet} (h : ∀ q, q ∈ s ↔ q ∈ t) : s = t := by
  have hlist : s.toList = t.toList := by
    refine List.Perm.eq_of_pairwise ?_ s.ascending t.ascending
      ((List.perm_ext_iff_of_nodup s.nodup t.nodup).2 h)
    intro p q _ _ hpq hqp
    exact absurd (Qubit.lt_trans hpq hqp) (Qubit.lt_irrefl p)
  rw [mk.injEq]
  exact hlist

theorem size_le_size {s t : QubitSet} (h : s ⊆ t) : s.size ≤ t.size :=
  s.nodup.length_le_of_subset fun q hq => h q hq

theorem size_lt_size {s t : QubitSet} {q : Qubit} (h : ∀ p ∈ s, p ∈ t) (hq : q ∈ t)
    (hs : q ∉ s) : s.size < t.size :=
  List.Nodup.length_le_of_subset (List.nodup_cons.2 ⟨hs, s.nodup⟩)
    (List.cons_subset.2 ⟨hq, fun p hp => h p hp⟩)

theorem index_lt_bound {s : QubitSet} {q : Qubit} (h : q ∈ s) : q.index < s.bound := by
  have hasc := s.ascending
  rw [mem_def] at h
  rw [bound, max?]
  cases hlast : s.toList.getLast? with
  | none =>
    rw [List.getLast?_eq_none_iff.1 hlast] at h
    cases h
  | some r =>
    have ⟨qs, hqs⟩ := List.getLast?_eq_some_iff.1 hlast
    rw [hqs, List.pairwise_append] at hasc
    rw [hqs, List.mem_append, List.mem_singleton] at h
    cases h with
    | inl hq => exact Nat.lt_succ_of_lt (hasc.2.2 q hq r List.mem_cons_self)
    | inr hq => exact hq ▸ Nat.lt_succ_self r.index

theorem bound_le {s : QubitSet} {n : Nat} (h : ∀ q ∈ s, q.index < n) : s.bound ≤ n := by
  rw [bound, max?]
  cases hlast : s.toList.getLast? with
  | none => exact Nat.zero_le n
  | some r => exact h r (List.mem_of_getLast? hlast)

theorem bound_insert (s : QubitSet) (q : Qubit) :
    (s.insert q).bound = max s.bound (q.index + 1) := by
  apply Nat.le_antisymm
  · apply bound_le
    intro p hp
    rcases mem_insert.1 hp with rfl | hp
    · exact Nat.le_max_right _ _
    · exact Nat.lt_of_lt_of_le (index_lt_bound hp) (Nat.le_max_left _ _)
  · refine Nat.max_le.2 ⟨bound_le fun p hp => ?_, ?_⟩
    · exact index_lt_bound (mem_insert.2 (.inr hp))
    · exact index_lt_bound (mem_insert.2 (.inl rfl))

theorem size_le_bound (s : QubitSet) : s.size ≤ s.bound := by
  have hnodup : (s.toList.map Qubit.index).Nodup :=
    List.pairwise_map.2 (s.ascending.imp Nat.ne_of_lt)
  have hsub : s.toList.map Qubit.index ⊆ List.range s.bound := by
    intro i hi
    have ⟨q, hq, hqi⟩ := List.mem_map.1 hi
    exact List.mem_range.2 (hqi ▸ index_lt_bound hq)
  have hlen := List.Nodup.length_le_of_subset hnodup hsub
  rwa [List.length_map, List.length_range] at hlen

theorem size_eq_of_mem_iff {s : QubitSet} {n : Nat} (hn : n ≤ UInt32.size)
    (h : ∀ q, q ∈ s ↔ q.index < n) : s.size = n := by
  apply Nat.le_antisymm
  · exact Nat.le_trans s.size_le_bound (bound_le fun q hq => (h q).1 hq)
  · have hsub : List.range n ⊆ s.toList.map Qubit.index := by
      intro i hi
      have hlt := List.mem_range.1 hi
      have hindex : Qubit.index ⟨i.toUInt32⟩ = i := Nat.mod_eq_of_lt (Nat.lt_of_lt_of_le hlt hn)
      exact List.mem_map.2 ⟨_, (h _).2 (hindex.symm ▸ hlt), hindex⟩
    have hlen := List.nodup_range.length_le_of_subset hsub
    rwa [List.length_map, List.length_range] at hlen

end QubitSet

end QubitReuse
