import QubitReuse.Compression.Error

/-!
The slots of a machine, lent to qubits. A slot that comes back goes on top of the free ones and is
lent again first, so a slot that was never used is opened only when all opened ones are in use.
-/

namespace QubitReuse

abbrev Slot := Qubit

/-- Slots from `opened` on are free and were never lent. -/
structure Pool where
  bound : Nat
  returned : List Slot
  opened : Nat
  held : List (Qubit × Slot)
  peak : Nat
  deriving DecidableEq

abbrev PoolM := EStateM CompressionError Pool

namespace Pool

def ofBound (bound : Nat) : Pool := ⟨bound, [], 0, [], 0⟩

/-- Ids have 32 bits, and so does the number of slots. -/
def capacity (p : Pool) : Nat := p.bound % UInt32.size

def inUse (p : Pool) : Nat := p.held.length

def slotOf? (p : Pool) (q : Qubit) : Option Slot := p.held.lookup q

def free (p : Pool) : List Slot :=
  p.returned ++ (List.range' p.opened (p.capacity - p.opened)).filterMap Qubit.ofNat?

def take? (p : Pool) : Option (Slot × Pool) :=
  match p.returned with
  | s :: rest => some (s, { p with returned := rest })
  | [] =>
    if p.opened < p.capacity then some (⟨p.opened.toUInt32⟩, { p with opened := p.opened + 1 })
    else none

def lend (p : Pool) (q : Qubit) (s : Slot) : Pool :=
  { p with held := (q, s) :: p.held, peak := max p.peak (p.held.length + 1) }

def acquire (q : Qubit) : PoolM Slot := fun p =>
  match p.slotOf? q with
  | some s => .ok s p
  | none =>
    match p.take? with
    | some (s, p') => .ok s (p'.lend q s)
    | none => .error (.slotsExhausted q p.bound) p

def acquireAll : List Qubit → PoolM Unit
  | [] => return ()
  | q :: qs => do
    let _ ← acquire q
    acquireAll qs

def release (q : Qubit) : PoolM Slot := fun p =>
  match p.slotOf? q with
  | some s => .ok s { p with returned := s :: p.returned, held := p.held.filter (·.1 ≠ q) }
  | none => .error (.unheldRelease q) p

end Pool

end QubitReuse
