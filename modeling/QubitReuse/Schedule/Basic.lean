import QubitReuse.Circuit.Basic

namespace QubitReuse

inductive Step
  | block (layer : Layer)
  | release (q : Qubit)
  deriving DecidableEq, Inhabited

namespace Step

def gates : Step → List Gate
  | block l => l
  | release _ => []

def isBlock : Step → Bool
  | block _ => true
  | release _ => false

def qubits : Step → List Qubit
  | block l => Layer.ends l
  | release q => [q]

def map (f : Qubit → Qubit) : Step → Step
  | block l => block (l.map (Gate.map f))
  | release q => release (f q)

def unoriented : Step → Step
  | block l => block (Layer.unoriented l)
  | release q => release q

end Step

structure Schedule where
  steps : List Step
  deriving DecidableEq, Inhabited

namespace Schedule

def empty : Schedule := ⟨[]⟩

def pushBlock (s : Schedule) (l : Layer) : Schedule := ⟨s.steps ++ [.block l]⟩

def pushRelease (s : Schedule) (q : Qubit) : Schedule := ⟨s.steps ++ [.release q]⟩

def length (s : Schedule) : Nat := s.steps.length

def isEmpty (s : Schedule) : Bool := s.steps.isEmpty

def numBlocks (s : Schedule) : Nat := s.steps.countP Step.isBlock

def numReleases (s : Schedule) : Nat := s.steps.countP (!·.isBlock)

def gates (s : Schedule) : List Gate := s.steps.flatMap Step.gates

def qubits (s : Schedule) : QubitSet := .ofList (s.steps.flatMap Step.qubits)

def bound (s : Schedule) : Nat := s.qubits.bound

def unoriented (s : Schedule) : Schedule := ⟨s.steps.map Step.unoriented⟩

def map (f : Qubit → Qubit) (s : Schedule) : Schedule := ⟨s.steps.map (Step.map f)⟩

def Alike (s t : Schedule) : Prop := s.unoriented = t.unoriented

instance (s t : Schedule) : Decidable (s.Alike t) :=
  inferInstanceAs (Decidable (s.unoriented = t.unoriented))

end Schedule

end QubitReuse
