import QubitReuse.Schedule.Basic

/-!
What circuits and schedules compute, for any values that a qubit may hold and any action of a pair
on two of them. All qubits start alike, and a release starts its qubit again.
-/

namespace QubitReuse

universe u

structure Device (V : Type u) where
  start : V
  act : V × V → V × V

abbrev Values (V : Type u) := Qubit → V

variable {V : Type u}

def Values.set (v : Values V) (q : Qubit) (x : V) : Values V := fun p => if p = q then x else v p

namespace Device

def initial (m : Device V) : Values V := fun _ => m.start

/-- An action that swaps its results when its arguments are swapped has no orientation. -/
def Symmetric (m : Device V) : Prop := ∀ x y, m.act (y, x) = (m.act (x, y)).swap

end Device

/-- The first end gets the first result and the second end the second one, in this order. -/
def Gate.exec (m : Device V) : Gate → Values V → Values V
  | .pair a b, v => (v.set a (m.act (v a, v b)).1).set b (m.act (v a, v b)).2
  | .release q, v => v.set q m.start

def Layer.exec (m : Device V) (l : Layer) (v : Values V) : Values V :=
  l.foldl (fun v g => g.exec m v) v

def Circuit.exec (m : Device V) (c : Circuit) (v : Values V) : Values V :=
  c.layers.foldl (fun v l => Layer.exec m l v) v

def Step.exec (m : Device V) : Step → Values V → Values V
  | .block l, v => Layer.exec m l v
  | .release q, v => v.set q m.start

def Schedule.exec (m : Device V) (s : Schedule) (v : Values V) : Values V :=
  s.steps.foldl (fun v st => st.exec m v) v

@[simp] theorem Values.set_self (v : Values V) (q : Qubit) (x : V) : v.set q x q = x := by
  simp [set]

theorem Values.set_of_ne (v : Values V) {p q : Qubit} (x : V) (h : p ≠ q) : v.set q x p = v p := by
  simp [set, h]

theorem Gate.exec_of_not_touches (m : Device V) {g : Gate} {q : Qubit} (h : ¬ g.Touches q)
    (v : Values V) : g.exec m v q = v q := by
  cases g <;> simp_all [Touches, ends, exec, Values.set]

theorem Layer.exec_append (m : Device V) (l l' : Layer) (v : Values V) :
    Layer.exec m (l ++ l') v = Layer.exec m l' (Layer.exec m l v) := by
  simp [Layer.exec]

theorem Circuit.exec_append (m : Device V) (ls ls' : List Layer) (v : Values V) :
    Circuit.exec m ⟨ls ++ ls'⟩ v = Circuit.exec m ⟨ls'⟩ (Circuit.exec m ⟨ls⟩ v) :=
  List.foldl_append

theorem Circuit.exec_eq_exec_gates (m : Device V) (c : Circuit) (v : Values V) :
    c.exec m v = Layer.exec m c.gates v := by
  cases c with
  | mk layers =>
    simp only [exec, gates]
    induction layers generalizing v with
    | nil => rfl
    | cons l ls ih => rw [List.flatten_cons, Layer.exec_append, List.foldl_cons, ih]

end QubitReuse
