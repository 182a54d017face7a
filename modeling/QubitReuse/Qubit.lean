namespace QubitReuse

/-- A site that holds one quantum value: a wire of a circuit or a slot of a machine. -/
structure Qubit where
  id : UInt32
  deriving DecidableEq, Inhabited

namespace Qubit

def index (q : Qubit) : Nat := q.id.toNat

def ofNat? (n : Nat) : Option Qubit := if n < UInt32.size then some ⟨n.toUInt32⟩ else none

instance : LT Qubit := ⟨fun p q => p.index < q.index⟩
instance : LE Qubit := ⟨fun p q => p.index ≤ q.index⟩
instance (p q : Qubit) : Decidable (p < q) := inferInstanceAs (Decidable (p.index < q.index))
instance (p q : Qubit) : Decidable (p ≤ q) := inferInstanceAs (Decidable (p.index ≤ q.index))

def sort (qs : List Qubit) : List Qubit := qs.mergeSort fun p q => decide (p ≤ q)

def text (q : Qubit) : String := s!"q{q.index}"

theorem lt_def {p q : Qubit} : p < q ↔ p.index < q.index := Iff.rfl

theorem le_def {p q : Qubit} : p ≤ q ↔ p.index ≤ q.index := Iff.rfl

theorem index_lt (q : Qubit) : q.index < UInt32.size := q.id.toNat_lt_size

theorem index_injective {p q : Qubit} (h : p.index = q.index) : p = q := by
  cases p
  cases q
  exact congrArg Qubit.mk (UInt32.toNat_inj.1 h)

theorem lt_irrefl (q : Qubit) : ¬ q < q := Nat.lt_irrefl q.index

theorem lt_trans {p q r : Qubit} (h : p < q) (h' : q < r) : p < r := Nat.lt_trans h h'

theorem lt_of_not_lt {p q : Qubit} (h : ¬ p < q) (hne : p ≠ q) : q < p := by
  have : p.index ≠ q.index := fun h' => hne (index_injective h')
  simp only [lt_def] at *
  omega

theorem ofNat?_index (q : Qubit) : ofNat? q.index = some q := by
  cases q with
  | mk id => simp [ofNat?, index, id.toNat_lt_size]

end Qubit

end QubitReuse
