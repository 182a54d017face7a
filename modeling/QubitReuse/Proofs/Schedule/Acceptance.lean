import QubitReuse.Proofs.Circuit.Reordering
import QubitReuse.Proofs.Schedule.Linearisation

namespace QubitReuse

universe u

variable {V : Type u} {m : Device V} {v : Values V}

theorem Values.set_set_comm (v : Values V) {p q : Qubit} (x y : V) (h : p ≠ q) :
    (v.set p x).set q y = (v.set q y).set p x := by
  funext r
  by_cases hp : r = p
  · rw [hp, set_of_ne _ _ h, set_self, set_self]
  · rw [set_of_ne _ _ hp]
    by_cases hq : r = q
    · rw [hq, set_self, set_self]
    · rw [set_of_ne _ _ hq, set_of_ne _ _ hq, set_of_ne _ _ hp]

namespace Device.Symmetric

theorem exec_swap (hm : m.Symmetric) (a b : Qubit) :
    (Gate.pair b a).exec m v = (Gate.pair a b).exec m v := by
  by_cases hab : a = b
  · rw [hab]
  · rw [Gate.exec, Gate.exec, hm, Prod.fst_swap, Prod.snd_swap]
    exact Values.set_set_comm v _ _ (Ne.symm hab)

theorem exec_unoriented_gate (hm : m.Symmetric) (g : Gate) :
    g.unoriented.exec m v = g.exec m v := by
  cases g with
  | pair a b =>
    rw [Gate.unoriented]
    split
    · rfl
    · exact hm.exec_swap a b
  | release q => rfl

theorem exec_unoriented (hm : m.Symmetric) (l : Layer) :
    Layer.exec m l.unoriented v = Layer.exec m l v := by
  induction l generalizing v with
  | nil => rfl
  | cons g l ih =>
    rw [Layer.unoriented_cons, Layer.exec, List.foldl_cons, hm.exec_unoriented_gate]
    exact ih

end Device.Symmetric

namespace Schedule

variable {s : Schedule} {c : Circuit}

theorem Linearises.exists_reorders (h : s.Linearises c) :
    ∃ c' : Circuit, c'.Reorders c ∧ ∀ {V : Type u} (m : Device V), m.Symmetric → ∀ v : Values V,
      Layer.exec m s.gates v = c'.exec m v := by
  have ⟨order, hperm, hmap, hpair⟩ := h
  have ⟨ls', hls', hexec⟩ := exists_layers_of_order hperm hpair
  refine ⟨⟨ls'⟩, hls', fun m hm v => ?_⟩
  have hgates : Layer.unoriented (order.map Prod.snd) = Layer.unoriented s.gates := by
    rw [Layer.unoriented, List.map_map]
    exact hmap
  calc
    Layer.exec m s.gates v = Layer.exec m (Layer.unoriented s.gates) v :=
      (hm.exec_unoriented _).symm
    _ = Layer.exec m (order.map Prod.snd) v := by rw [← hgates, hm.exec_unoriented]
    _ = Circuit.exec m ⟨ls'⟩ v := hexec m v

/-- The gates of the blocks run in order and the releases between them are left out. -/
theorem accepted_computes_reordered {r : OrderReport} (h : s.checkOrder c = .ok r) :
    (∃ c' : Circuit, c'.Reorders c ∧ ∀ {V : Type u} (m : Device V), m.Symmetric → ∀ v : Values V,
      Layer.exec m s.gates v = c'.exec m v) ∧
    (c.Disjoint → ∀ {V : Type u} (m : Device V), m.Symmetric → ∀ v : Values V,
      Layer.exec m s.gates v = c.exec m v) := by
  have ⟨c', hc', hexec⟩ := (checkOrder_eq_ok_iff.1 h).1.exists_reorders
  refine ⟨⟨c', hc', hexec⟩, fun hc V m hm v => ?_⟩
  rw [hexec m hm v, hc.exec_of_reorders hc']

/-- The first schedule runs a shared layer from its end, and the stored order would leave 3 in the
first qubit; the second one runs disjoint layers. -/
theorem accepted_computes_reordered_shared :
    (∃ r, ∃ c' : Circuit,
      checkOrder ⟨[.block [.pair ⟨2⟩ ⟨1⟩], .block [.pair ⟨1⟩ ⟨0⟩, .pair ⟨3⟩ ⟨2⟩]]⟩
        ⟨[[.pair ⟨0⟩ ⟨1⟩, .pair ⟨1⟩ ⟨2⟩], [.pair ⟨2⟩ ⟨3⟩]]⟩ = .ok r ∧
      c'.Reorders ⟨[[.pair ⟨0⟩ ⟨1⟩, .pair ⟨1⟩ ⟨2⟩], [.pair ⟨2⟩ ⟨3⟩]]⟩ ∧
      c'.exec ⟨1, fun x => (x.1 + 2 * x.2, x.2 + 2 * x.1)⟩ (fun _ => 1) ⟨0⟩ = 7) ∧
    ∃ r, checkOrder ⟨[.block [.pair ⟨2⟩ ⟨1⟩], .release ⟨1⟩]⟩ ⟨[[.pair ⟨1⟩ ⟨2⟩]]⟩ = .ok r ∧
      Circuit.exec ⟨1, fun x => (x.1 + 2 * x.2, x.2 + 2 * x.1)⟩ ⟨[[.pair ⟨1⟩ ⟨2⟩]]⟩
        (fun _ => 1) ⟨1⟩ = 3 := by
  have hm : Device.Symmetric (⟨1, fun x => (x.1 + 2 * x.2, x.2 + 2 * x.1)⟩ : Device Nat) :=
    fun _ _ => rfl
  have hshared : checkOrder ⟨[.block [.pair ⟨2⟩ ⟨1⟩], .block [.pair ⟨1⟩ ⟨0⟩, .pair ⟨3⟩ ⟨2⟩]]⟩
      ⟨[[.pair ⟨0⟩ ⟨1⟩, .pair ⟨1⟩ ⟨2⟩], [.pair ⟨2⟩ ⟨3⟩]]⟩ = .ok ⟨true, 4, 3, 0⟩ := by
    rfl
  have hdisjoint : checkOrder ⟨[.block [.pair ⟨2⟩ ⟨1⟩], .release ⟨1⟩]⟩ ⟨[[.pair ⟨1⟩ ⟨2⟩]]⟩ =
      .ok ⟨true, 2, 1, 1⟩ := by
    rfl
  have ⟨⟨c', hc', hexec⟩, _⟩ := accepted_computes_reordered hshared
  have ⟨_, hstored⟩ := accepted_computes_reordered hdisjoint
  refine ⟨⟨_, c', hshared, hc', ?_⟩, ⟨_, hdisjoint, ?_⟩⟩
  · rw [← hexec _ hm]
    rfl
  · rw [← hstored (by decide) _ hm]
    rfl

end Schedule

end QubitReuse
