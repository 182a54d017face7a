import QubitReuse.LiveSet

namespace QubitReuse

theorem Qubit.ofNat?_eq_some_iff {n : Nat} {q : Qubit} : ofNat? n = some q ↔ q.index = n := by
  constructor
  · intro h
    rw [ofNat?] at h
    split at h
    · rename_i hn
      cases h
      exact Nat.mod_eq_of_lt hn
    · cases h
  · rintro rfl
    exact ofNat?_index q

namespace LiveSet

variable {s s' : LiveSet} {t t' : QubitSet} {n : Nat} {q : Qubit}

theorem eq_of_bit_eq (hbound : s.bound = s'.bound) (h : ∀ i, s.bit i = s'.bit i) : s = s' := by
  rw [mk.injEq]
  apply Array.ext hbound
  intro i hi hi'
  have hbit := h i
  rwa [bit, bit, Array.getD, dif_pos hi, Array.getD, dif_pos hi'] at hbit

theorem isEmpty_iff : s.isEmpty = true ↔ s.size = 0 := by
  rw [isEmpty, size, Array.count_eq_zero, Bool.not_eq_true', ← Bool.not_eq_true,
    Array.contains_iff_mem]

theorem eq_some_of_bit_iff {x : Bool × Nat} :
    (if x.1 then Qubit.ofNat? x.2 else none) = some q ↔ x = (true, q.index) := by
  obtain ⟨bit, i⟩ := x
  cases bit with
  | false => simp
  | true => rw [if_pos rfl, Qubit.ofNat?_eq_some_iff, Prod.mk.injEq, eq_self, true_and, eq_comm]

theorem mem_toList : q ∈ s.toList ↔ s.contains q = true := by
  rw [contains, Array.getD_eq_getD_getElem?, toList, List.mem_filterMap]
  simp only [eq_some_of_bit_iff, exists_eq_right, List.mem_zipIdx_iff_getElem?,
    Array.getElem?_toList]
  cases s.bits[q.index]? <;> simp

theorem pairwise_toList (s : LiveSet) : s.toList.Pairwise (· < ·) := by
  have hindices : (s.bits.toList.zipIdx.map Prod.snd).Pairwise (· < ·) := by
    rw [List.zipIdx_map_snd]
    exact List.pairwise_lt_range'
  apply List.pairwise_filterMap.2
  apply (List.pairwise_map.1 hindices).imp
  intro x y hxy p hp q hq
  rw [eq_some_of_bit_iff.1 hp, eq_some_of_bit_iff.1 hq] at hxy
  exact hxy

theorem toList_eq (h : ∀ q, s.contains q = true ↔ q ∈ t) : s.toList = t.toList := by
  have hset : (⟨s.toList, s.pairwise_toList⟩ : QubitSet) = t :=
    QubitSet.eq_of_mem_iff fun q => mem_toList.trans (h q)
  exact congrArg QubitSet.toList hset

/-- Every bit that is set is that of a qubit. A row may be longer than there are qubits. -/
def Named (s : LiveSet) : Prop := ∀ i, s.bit i = true → i < UInt32.size

theorem named_withBound (n : Nat) : (withBound n).Named := by
  intro i h
  rw [bit_withBound] at h
  cases h

theorem Named.insert (h : s.Named) (q : Qubit) : (s.insert q).Named := by
  intro i hi
  rw [bit_insert, Bool.or_eq_true, decide_eq_true_eq] at hi
  rcases hi with rfl | hi
  · exact q.index_lt
  · exact h i hi

theorem Named.foldl_insert (h : s.Named) (qs : List Qubit) : (qs.foldl LiveSet.insert s).Named := by
  induction qs generalizing s with
  | nil => exact h
  | cons q qs ih => exact ih (h.insert q)

theorem length_toList (h : s.Named) : s.toList.length = s.size := by
  have hbit : ∀ x ∈ s.bits.toList.zipIdx,
      (if x.1 then Qubit.ofNat? x.2 else none).isSome = true ↔ x.1 = true := by
    rintro ⟨bit, i⟩ hx
    cases bit with
    | false => simp
    | true =>
      have hi : s.bit i = true := by
        rw [LiveSet.bit, Array.getD_eq_getD_getElem?, ← Array.getElem?_toList,
          List.mem_zipIdx_iff_getElem?.1 hx, Option.getD_some]
      rw [if_pos rfl, Qubit.ofNat?, if_pos (h i hi), Option.isSome_some]
  calc
    s.toList.length = s.bits.toList.zipIdx.countP Prod.fst := by
      rw [toList, List.length_filterMap_eq_countP]
      exact List.countP_congr hbit
    _ = (s.bits.toList.zipIdx.map Prod.fst).countP id := by
      rw [List.countP_map]
      rfl
    _ = s.size := by
      rw [List.zipIdx_map_fst, size, ← Array.count_toList, List.count]
      exact List.countP_congr fun bit _ => by simp

theorem size_eq_size (hs : s.Named) (h : ∀ q, s.contains q = true ↔ q ∈ t) : s.size = t.size := by
  rw [← length_toList hs, toList_eq h, QubitSet.size]

structure Represents (s : LiveSet) (t : QubitSet) (n : Nat) : Prop where
  bit_iff : ∀ i, s.bit i = true ↔ ∃ q ∈ t, q.index = i
  bound_eq : s.bound = max n t.bound

structure Refines (s : LiveSet) (t : QubitSet) (n : Nat) : Prop where
  contains_iff : ∀ q, s.contains q = true ↔ q ∈ t
  contains_of_le : ∀ q, s.bound ≤ q.index → s.contains q = false
  new_iff : ∀ q, (s.insertNew q).1 = true ↔ q ∉ t
  size_eq : s.size = t.size
  isEmpty_iff : s.isEmpty = true ↔ ∀ q, q ∉ t
  toList_eq : s.toList = t.toList
  ascending : s.toList.Pairwise (· < ·)
  bound_eq : s.bound = max n t.bound
  bound_le : ∀ q, s.bound ≤ (s.insertNew q).2.bound

namespace Represents

theorem withBound (n : Nat) : Represents (withBound n) .empty n := by
  constructor
  case bit_iff =>
    intro i
    rw [bit_withBound]
    constructor
    · intro h
      cases h
    · rintro ⟨q, hq, -⟩
      exact absurd hq (QubitSet.not_mem_empty q)
  case bound_eq => exact (bound_withBound n).trans (Nat.max_zero n).symm

theorem insert (h : Represents s t n) (q : Qubit) : Represents (s.insert q) (t.insert q) n := by
  constructor
  case bit_iff =>
    intro i
    rw [bit_insert, Bool.or_eq_true, decide_eq_true_eq, h.bit_iff]
    simp only [QubitSet.mem_insert, or_and_right, exists_or, exists_eq_left, @eq_comm _ i]
  case bound_eq => rw [bound_insert, h.bound_eq, QubitSet.bound_insert, Nat.max_assoc]

theorem foldl_insert (h : Represents s t n) (qs : List Qubit) :
    Represents (qs.foldl LiveSet.insert s) (qs.foldl QubitSet.insert t) n := by
  induction qs generalizing s t with
  | nil => exact h
  | cons q qs ih => exact ih (h.insert q)

theorem ofSet (t : QubitSet) (n : Nat) : Represents (ofSet t n) t n := by
  have hrun := (withBound (max n t.bound)).foldl_insert t.toList
  have hset : t.toList.foldl QubitSet.insert .empty = t :=
    QubitSet.eq_of_mem_iff fun _ => QubitSet.mem_ofList
  rw [hset] at hrun
  -- The row has room for all members before the first one is put in.
  refine ⟨hrun.bit_iff, hrun.bound_eq.trans ?_⟩
  rw [Nat.max_assoc, Nat.max_self]

theorem contains_iff (h : Represents s t n) (q : Qubit) : s.contains q = true ↔ q ∈ t := by
  rw [contains_eq_bit, h.bit_iff]
  constructor
  · rintro ⟨p, hp, hindex⟩
    exact Qubit.index_injective hindex ▸ hp
  · intro hq
    exact ⟨q, hq, rfl⟩

theorem named (h : Represents s t n) : s.Named := by
  intro i hi
  obtain ⟨q, -, rfl⟩ := (h.bit_iff i).1 hi
  exact q.index_lt

theorem refines (h : Represents s t n) : Refines s t n := by
  have hcontains := h.contains_iff
  have hsize := size_eq_size h.named hcontains
  constructor
  case contains_iff => exact hcontains
  case contains_of_le =>
    intro q hq
    rw [← Bool.not_eq_true, hcontains]
    intro hmem
    have hlt := Nat.lt_of_lt_of_le (QubitSet.index_lt_bound hmem) (Nat.le_max_right n t.bound)
    exact Nat.not_le_of_lt hlt (h.bound_eq ▸ hq)
  case new_iff =>
    intro q
    rw [← hcontains, insertNew, Bool.not_eq_true', Bool.not_eq_true]
  case size_eq => exact hsize
  case isEmpty_iff =>
    rw [LiveSet.isEmpty_iff, hsize, QubitSet.size, List.length_eq_zero_iff,
      List.eq_nil_iff_forall_not_mem]
    rfl
  case toList_eq => exact LiveSet.toList_eq hcontains
  case ascending => exact s.pairwise_toList
  case bound_eq => exact h.bound_eq
  case bound_le =>
    intro q
    rw [insertNew, bound_insert]
    exact Nat.le_max_left _ _

theorem eq_iff {n' : Nat} (h : Represents s t n) (h' : Represents s' t' n') :
    s = s' ↔ (∀ q, q ∈ t ↔ q ∈ t') ∧ s.bound = s'.bound := by
  constructor
  · rintro rfl
    exact ⟨fun q => (h.contains_iff q).symm.trans (h'.contains_iff q), rfl⟩
  · rintro ⟨hmem, hbound⟩
    refine eq_of_bit_eq hbound fun i => ?_
    rw [Bool.eq_iff_iff, h.bit_iff, h'.bit_iff]
    simp only [hmem]

end Represents

inductive History
  | empty
  | withBound (n : Nat)
  | ofSet (t : QubitSet) (n : Nat)
  | insert (h : History) (q : Qubit)

namespace History

def row : History → LiveSet
  | empty => .empty
  | withBound n => .withBound n
  | ofSet t n => .ofSet t n
  | insert h q => (h.row.insertNew q).2

def members : History → QubitSet
  | empty => .empty
  | withBound _ => .empty
  | ofSet t _ => t
  | insert h q => h.members.insert q

def room : History → Nat
  | empty => 0
  | withBound n => n
  | ofSet _ n => n
  | insert h _ => h.room

theorem represents (h : History) : Represents h.row h.members h.room := by
  induction h with
  | empty => exact .withBound 0
  | withBound n => exact .withBound n
  | ofSet t n => exact .ofSet t n
  | insert h q ih => exact ih.insert q

/-- A row tells of the qubits that were put in what a set of them would, and nothing else but its
length. -/
theorem rows_refine_sets (h h' : History) :
    Refines h.row h.members h.room ∧
    (h.row = h'.row ↔ (∀ q, q ∈ h.members ↔ q ∈ h'.members) ∧ h.row.bound = h'.row.bound) :=
  ⟨h.represents.refines, h.represents.eq_iff h'.represents⟩

/-- A row remembers its length: these are two rows of the same set. -/
example : (insert (withBound 2) ⟨3⟩).row ≠ (insert (withBound 8) ⟨3⟩).row := by decide

end History

end LiveSet

end QubitReuse
