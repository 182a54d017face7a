import Mathlib.Data.List.Forall2
import Mathlib.Order.Bounds.Defs
import QubitReuse.Schedule.Linearisation

namespace QubitReuse

/-- The list falls into consecutive groups, one for each of the others and with its members. -/
def CutsInto {α : Type} (xs : List α) (ls : List (List α)) : Prop :=
  ∃ groups : List (List α), groups.flatten = xs ∧ List.Forall₂ List.Perm groups ls

def Circuit.layersTouching (c : Circuit) (q : Qubit) : List Layer :=
  (c.layers.map (touching q)).filter (!·.isEmpty)

def Step.reused? (earlier : List Step) (st : Step) : Option Qubit :=
  st.qubits.find? fun q => decide (.release q ∈ earlier)

namespace Schedule

def FollowsOn (s : Schedule) (c : Circuit) (q : Qubit) : Prop :=
  CutsInto (Layer.unoriented (touching q s.gates)) ((c.layersTouching q).map Layer.unoriented)

def Departs (s : Schedule) (c : Circuit) (q : Qubit) : Prop := q ∈ c.qubits ∧ ¬ s.FollowsOn c q

def Foreign (s : Schedule) (c : Circuit) (q : Qubit) : Prop :=
  (∃ g ∈ s.gates, g.Touches q) ∧ q ∉ c.qubits

def FirstReuses (s : Schedule) (q : Qubit) : Prop :=
  ∃ before st after, s.steps = before ++ st :: after ∧ RestsAfterRelease ⟨before⟩ ∧
    st.reused? before = some q

/-- The qubit to report: the least one that departs, else the least foreign one, else the first one
that is reused. -/
inductive Culprit (s : Schedule) (c : Circuit) (q : Qubit) : Prop
  | departs : IsLeast {p | s.Departs c p} q → Culprit s c q
  | foreign : (∀ p, ¬ s.Departs c p) → IsLeast {p | s.Foreign c p} q → Culprit s c q
  | reused : (∀ p, ¬ s.Departs c p) → (∀ p, ¬ s.Foreign c p) → s.FirstReuses q → Culprit s c q

end Schedule

end QubitReuse
