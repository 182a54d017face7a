import QubitReuse.QubitSet

namespace QubitReuse

/-- A bit per index. Two rows of different length differ, even if they hold the same qubits. -/
structure LiveSet where
  bits : Array Bool
  deriving DecidableEq

namespace LiveSet

def withBound (n : Nat) : LiveSet := ⟨Array.replicate n false⟩

def empty : LiveSet := withBound 0

instance : Inhabited LiveSet := ⟨empty⟩

def bound (s : LiveSet) : Nat := s.bits.size

def contains (s : LiveSet) (q : Qubit) : Bool := s.bits.getD q.index false

def grow (s : LiveSet) (n : Nat) : LiveSet := ⟨s.bits ++ Array.replicate (n - s.bits.size) false⟩

def insert (s : LiveSet) (q : Qubit) : LiveSet :=
  ⟨(s.grow (q.index + 1)).bits.setIfInBounds q.index true⟩

def insertNew (s : LiveSet) (q : Qubit) : Bool × LiveSet := (!s.contains q, s.insert q)

def ofSet (s : QubitSet) (bound : Nat) : LiveSet :=
  s.toList.foldl insert (withBound (max bound s.bound))

def size (s : LiveSet) : Nat := s.bits.count true

def isEmpty (s : LiveSet) : Bool := !s.bits.contains true

def toList (s : LiveSet) : List Qubit :=
  s.bits.toList.zipIdx.filterMap fun (bit, i) => if bit then Qubit.ofNat? i else none

@[simp] theorem bound_withBound (n : Nat) : (withBound n).bound = n := by simp [bound, withBound]

@[simp] theorem size_withBound (n : Nat) : (withBound n).size = 0 := by
  simp [size, withBound, Array.count_replicate]

def bit (s : LiveSet) (i : Nat) : Bool := s.bits.getD i false

theorem contains_eq_bit (s : LiveSet) (q : Qubit) : s.contains q = s.bit q.index := rfl

@[simp] theorem bit_withBound (n i : Nat) : (withBound n).bit i = false := by
  simp [bit, withBound, Array.getD]

@[simp] theorem contains_withBound (n : Nat) (q : Qubit) : (withBound n).contains q = false :=
  bit_withBound n q.index

@[simp] theorem bound_insert (s : LiveSet) (q : Qubit) :
    (s.insert q).bound = max s.bound (q.index + 1) := by
  simp only [bound, insert, grow, Array.size_setIfInBounds, Array.size_append, Array.size_replicate]
  omega

theorem bit_grow (s : LiveSet) (n i : Nat) : (s.grow n).bit i = s.bit i := by
  simp only [bit, grow, Array.getD_eq_getD_getElem?, Array.getElem?_append,
    Array.getElem?_replicate]
  split
  · rfl
  · rename_i h
    rw [Array.getElem?_eq_none (Nat.le_of_not_lt h)]
    split <;> rfl

theorem bit_insert (s : LiveSet) (q : Qubit) (i : Nat) :
    (s.insert q).bit i = (decide (i = q.index) || s.bit i) := by
  rw [← bit_grow s (q.index + 1) i]
  have hq : q.index < (s.grow (q.index + 1)).bits.size := by
    simp only [grow, Array.size_append, Array.size_replicate]
    omega
  simp only [bit, insert, Array.getD_eq_getD_getElem?, Array.getElem?_setIfInBounds]
  by_cases h : i = q.index
  · subst h
    simp [hq]
  · simp [h, Ne.symm h]

@[simp] theorem contains_insert (s : LiveSet) (p q : Qubit) :
    (s.insert q).contains p = (decide (p = q) || s.contains p) := by
  have hindex : p.index = q.index ↔ p = q := ⟨Qubit.index_injective, congrArg Qubit.index⟩
  rw [contains_eq_bit, bit_insert, decide_eq_decide.2 hindex]
  rfl

theorem contains_foldl_insert (qs : List Qubit) (s : LiveSet) (p : Qubit) :
    (qs.foldl insert s).contains p = (decide (p ∈ qs) || s.contains p) := by
  induction qs generalizing s with
  | nil => simp
  | cons q qs ih => simp [ih, Bool.or_assoc, Bool.or_left_comm, Bool.decide_or]

@[simp] theorem contains_ofSet (s : QubitSet) (n : Nat) (p : Qubit) :
    (ofSet s n).contains p = decide (p ∈ s) := by
  simp [ofSet, contains_foldl_insert, QubitSet.mem_def]

theorem size_pos {s : LiveSet} {q : Qubit} (h : s.contains q = true) : 0 < s.size := by
  rw [size, Array.count_pos_iff]
  rw [contains, Array.getD_eq_getD_getElem?] at h
  cases hb : s.bits[q.index]? with
  | none => simp [hb] at h
  | some bit =>
    rw [hb, Option.getD_some] at h
    exact h ▸ Array.mem_of_getElem? hb

end LiveSet

end QubitReuse
