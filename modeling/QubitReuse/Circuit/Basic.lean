import QubitReuse.Circuit.Error
import QubitReuse.QubitSet

namespace QubitReuse

abbrev Layer := List Gate

def touching (q : Qubit) (gs : List Gate) : List Gate := gs.filter fun g => decide (g.Touches q)

theorem touching_cons (q : Qubit) (g : Gate) (gs : List Gate) :
    touching q (g :: gs) = if g.Touches q then g :: touching q gs else touching q gs := by
  simp only [touching, List.filter_cons, decide_eq_true_iff]

theorem mem_touching {q : Qubit} {gs : List Gate} {g : Gate} :
    g ∈ touching q gs ↔ g ∈ gs ∧ g.Touches q := by
  rw [touching, List.mem_filter, decide_eq_true_iff]

namespace Layer

def ends (l : Layer) : List Qubit := l.flatMap Gate.ends

/-- Summed arity of the gates. -/
def width (l : Layer) : Nat := l.ends.length

def unoriented (l : Layer) : Layer := l.map Gate.unoriented

def Disjoint (l : Layer) : Prop := l.ends.Nodup

instance (l : Layer) : Decidable l.Disjoint := inferInstanceAs (Decidable l.ends.Nodup)

theorem mem_ends {l : Layer} {q : Qubit} : q ∈ l.ends ↔ ∃ g ∈ l, g.Touches q := List.mem_flatMap

@[simp] theorem ends_map (f : Qubit → Qubit) (l : Layer) :
    ends (l.map (Gate.map f)) = l.ends.map f := by
  simp [ends, List.flatMap_map, List.map_flatMap]

theorem width_le (l : Layer) : l.width ≤ 2 * l.length := by
  induction l with
  | nil => exact Nat.le_refl 0
  | cons g l ih =>
    simp only [width, ends, List.flatMap_cons, List.length_append, List.length_cons] at ih ⊢
    have hg : g.ends.length ≤ 2 := g.arity_le
    omega

end Layer

structure Circuit where
  layers : List Layer
  deriving DecidableEq, Inhabited

namespace Circuit

def empty : Circuit := ⟨[]⟩

def idle (depth : Nat) : Circuit := ⟨List.replicate depth []⟩

def depth (c : Circuit) : Nat := c.layers.length

def activeDepth (c : Circuit) : Nat := c.layers.countP (!·.isEmpty)

def gates (c : Circuit) : List Gate := c.layers.flatten

def numGates (c : Circuit) : Nat := c.gates.length

def isIdle (c : Circuit) : Bool := c.layers.all List.isEmpty

def ends (c : Circuit) : List Qubit := c.gates.flatMap Gate.ends

def qubits (c : Circuit) : QubitSet := .ofList c.ends

def bound (c : Circuit) : Nat := (c.ends.map (·.index + 1)).max?.getD 0

def numEnds (c : Circuit) : Nat := c.ends.length

def width (c : Circuit) : Nat := (c.layers.map Layer.width).max?.getD 0

def unoriented (c : Circuit) : Circuit := ⟨c.layers.map Layer.unoriented⟩

def map (f : Qubit → Qubit) (c : Circuit) : Circuit := ⟨c.layers.map (·.map (Gate.map f))⟩

def Alike (c d : Circuit) : Prop := c.unoriented = d.unoriented

instance (c d : Circuit) : Decidable (c.Alike d) :=
  inferInstanceAs (Decidable (c.unoriented = d.unoriented))

def Disjoint (c : Circuit) : Prop := ∀ l ∈ c.layers, Layer.Disjoint l

instance (c : Circuit) : Decidable c.Disjoint :=
  inferInstanceAs (Decidable (∀ l ∈ c.layers, Layer.Disjoint l))

def validate (c : Circuit) : Except CircuitError Unit :=
  match c.gates.find? fun g => decide g.IsLoop with
  | some g => .error (.invalidGate g .loop)
  | none => .ok ()

def validateBound (c : Circuit) (bound : Nat) : Except CircuitError Unit := do
  c.validate
  let outside g := (g.ends.find? fun q => decide (bound ≤ q.index)).map fun q => (g, q)
  match c.gates.findSome? outside with
  | some (g, q) => .error (.invalidGate g (.outside q bound))
  | none => .ok ()

def ofLayers (layers : List Layer) : Except CircuitError Circuit := do
  Circuit.validate ⟨layers⟩
  return ⟨layers⟩

def ofPairs (layers : List (List (Qubit × Qubit))) : Except CircuitError Circuit := do
  return ⟨← layers.mapM (·.mapM fun (a, b) => Gate.between a b)⟩

def push (c : Circuit) (l : Layer) : Circuit := ⟨c.layers ++ [l]⟩

instance : Append Circuit := ⟨fun c d => ⟨c.layers ++ d.layers⟩⟩

end Circuit

abbrev CircuitM := EStateM CircuitError Circuit

namespace CircuitM

def add (layer : Nat) (g : Gate) : CircuitM Unit := do
  let depth := (← get).depth
  if layer < depth then modify fun c => ⟨c.layers.modify layer (· ++ [g])⟩
  else throw (.layerOutOfRange layer depth)

/-- A loop is reported before a missing layer. -/
def addPair (layer : Nat) (a b : Qubit) : CircuitM Unit := do
  add layer (← ofExcept (Gate.between a b))

def addRelease (layer : Nat) (q : Qubit) : CircuitM Unit := add layer (.release q)

end CircuitM

namespace Circuit

/-- For chains of edits, which end with the first one that fails. -/
def andThen (c : Circuit) (edit : CircuitM Unit) : Except CircuitError Circuit :=
  match edit c with
  | .ok _ d => .ok d
  | .error e _ => .error e

def addPair (c : Circuit) (layer : Nat) (a b : Qubit) : Except CircuitError Circuit :=
  c.andThen (CircuitM.addPair layer a b)

def addRelease (c : Circuit) (layer : Nat) (q : Qubit) : Except CircuitError Circuit :=
  c.andThen (CircuitM.addRelease layer q)

@[simp] theorem mem_qubits {c : Circuit} {q : Qubit} :
    q ∈ c.qubits ↔ ∃ g ∈ c.gates, g.Touches q := by
  simp [qubits, ends, Gate.Touches]

@[simp] theorem layers_append (c d : Circuit) : (c ++ d).layers = c.layers ++ d.layers := rfl

theorem mem_qubits_append {c d : Circuit} {q : Qubit} :
    q ∈ (c ++ d).qubits ↔ q ∈ c.qubits ∨ q ∈ d.qubits := by
  simp only [mem_qubits, gates, layers_append, List.flatten_append, List.mem_append, or_and_right,
    exists_or]

theorem width_le {c : Circuit} {n : Nat} (h : ∀ l ∈ c.layers, Layer.width l ≤ n) :
    c.width ≤ n := by
  rw [width]
  cases hmax : (c.layers.map Layer.width).max? with
  | none => exact Nat.zero_le n
  | some w =>
    obtain ⟨l, hl, rfl⟩ := List.mem_map.1 (List.max?_mem hmax)
    exact h l hl

theorem width_le_numGates (c : Circuit) : c.width ≤ 2 * c.numGates := by
  refine width_le fun l hl => Nat.le_trans (Layer.width_le l) ?_
  exact Nat.mul_le_mul_left 2 (List.sublist_flatten_of_mem hl).length_le

theorem size_qubits_le (c : Circuit) : c.qubits.size ≤ 2 * c.numGates := by
  refine Nat.le_trans ?_ (Layer.width_le c.gates)
  refine c.qubits.nodup.length_le_of_subset fun q hq => ?_
  exact List.mem_flatMap.2 (mem_qubits.1 hq)

theorem mem_qubits_iff_exists_layer {c : Circuit} {q : Qubit} :
    q ∈ c.qubits ↔ ∃ l ∈ c.layers, q ∈ Layer.ends l := by
  simp only [mem_qubits, gates, List.mem_flatten, Layer.mem_ends]
  constructor
  · intro ⟨g, ⟨l, hl, hg⟩, hq⟩
    exact ⟨l, hl, g, hg, hq⟩
  · intro ⟨l, hl, g, hg, hq⟩
    exact ⟨g, ⟨l, hl, hg⟩, hq⟩

theorem validate_eq_ok_iff {c : Circuit} : c.validate = .ok () ↔ ∀ g ∈ c.gates, ¬ g.IsLoop := by
  rw [validate]
  split
  · rename_i g h
    have := List.mem_of_find?_eq_some h
    have := List.find?_some h
    simp_all
    exact ⟨g, ‹_›, ‹_›⟩
  · simp_all

end Circuit

end QubitReuse
