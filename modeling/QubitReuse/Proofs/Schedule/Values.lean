import Mathlib.Data.List.Perm.Subperm
import QubitReuse.Proofs.Circuit.Commuting
import QubitReuse.Proofs.Schedule.Rearrangement
import QubitReuse.Slot.Lifetime

namespace QubitReuse

universe u

variable {V : Type u} {m : Device V} {v w : Values V} {q : Qubit}

namespace Schedule

theorem exec_eq_of_agreeOn {steps : List Step} {A : Qubit → Prop}
    (hrest : RestsAfterRelease ⟨steps⟩) (hA : ∀ st ∈ steps, ∀ q ∈ st.qubits, A q)
    (h : v.AgreeOn A w) (hq : A q) (hrel : .release q ∉ steps) :
    Schedule.exec m ⟨steps⟩ v q = Layer.exec m (gates ⟨steps⟩) w q := by
  induction steps generalizing v w A with
  | nil => exact h q hq
  | cons st steps ih =>
    have ⟨hst, hsteps⟩ := List.pairwise_cons.1 hrest
    have ⟨hAst, hAsteps⟩ := List.forall_mem_cons.1 hA
    have ⟨hne, hq'⟩ := List.ne_and_not_mem_of_not_mem_cons hrel
    cases st with
    | block l =>
      have hgates : gates ⟨.block l :: steps⟩ = l ++ gates ⟨steps⟩ := rfl
      rw [hgates, Layer.exec_append]
      apply ih hsteps hAsteps _ hq hq'
      apply h.exec_layer
      intro g hg p hp
      exact hAst p (Layer.mem_ends.2 ⟨g, hg, hp⟩)
    | release r =>
      -- The two sides differ on `r` from now on, and no step that is left names it.
      apply ih (A := fun p => A p ∧ p ≠ r) hsteps _ _ ⟨hq, fun hqr => hne (hqr ▸ rfl)⟩ hq'
      · intro st' hst' p hp
        refine ⟨hAsteps st' hst' p hp, fun hpr => ?_⟩
        exact hst st' hst' r rfl (hpr ▸ hp)
      · intro p hp
        rw [← h p hp.1]
        exact Values.set_of_ne v m.start hp.2

theorem exec_eq_exec_gates {s : Schedule} (h : s.RestsAfterRelease) (hq : .release q ∉ s.steps) :
    s.exec m v q = Layer.exec m s.gates v q :=
  exec_eq_of_agreeOn (A := fun _ => True) h (fun _ _ _ _ => trivial) (fun _ _ => rfl) trivial hq

end Schedule

namespace Circuit.Exhausts

variable {c : Circuit} {rs : List Retirement} {frozen : QubitSet}

/-- In disjoint layers no gate has a copy, so no gate is retired in place of another. -/
theorem perm_of_disjoint (h : c.Exhausts rs) (hc : c.Disjoint) :
    (retiredGates rs).Perm c.layeredGates := by
  have hne : ∀ {x y : Nat × Gate}, Before x y → unorientedAt x ≠ unorientedAt y := by
    intro x y hxy heq
    have ⟨hlayer, halike⟩ := Prod.ext_iff.1 heq
    exact Gate.Alike.not_apart halike (hxy.apart_of_eq hlayer)
  have hnodup : (c.layeredGates.map unorientedAt).Nodup :=
    List.pairwise_map.2 (hc.pairwise_before.imp hne)
  have hretired : (retiredGates rs).Nodup := (h.perm.nodup_iff.2 hnodup).of_map
  have hlen := h.perm.length_eq
  rw [List.length_map, List.length_map] at hlen
  exact (hretired.subperm h.subset).perm_of_length_le (Nat.le_of_eq hlen.symm)

theorem pairwise_before (h : c.Exhausts rs) (hc : c.Disjoint) :
    (retiredGates rs).Pairwise Before := by
  have hlayer : (retiredGates rs).Pairwise fun x y => x.1 = y.1 → x.2.Apart y.2 := by
    apply ((h.perm_of_disjoint hc).pairwise_iff _).2
    · exact hc.pairwise_before.imp Before.apart_of_eq
    · intro x y hxy hyx
      exact (hxy hyx.symm).symm
  apply (h.pairwise.and hlayer).imp
  intro x y ⟨horder, hapart⟩
  by_cases hshare : ∃ q, x.2.Touches q ∧ y.2.Touches q
  · cases Nat.lt_or_eq_of_le (horder hshare) with
    | inl hlt => exact .inr hlt
    | inr heq => exact .inl (hapart heq)
  · exact .inl fun q hq hq' => hshare ⟨q, hq, hq'⟩

theorem exec_schedule (h : c.Exhausts rs) (hc : c.Disjoint)
    (hq : .release q ∉ rs.flatMap (·.steps frozen)) :
    Schedule.exec m ⟨rs.flatMap (·.steps frozen)⟩ v q = c.exec m v q := by
  calc
    Schedule.exec m ⟨rs.flatMap (·.steps frozen)⟩ v q
      = Layer.exec m ((retiredGates rs).map Prod.snd) v q := by
      rw [Schedule.exec_eq_exec_gates (h.restsAfterRelease frozen) hq, gates_eq]
    _ = Layer.exec m (c.layeredGates.map Prod.snd) v q := by
      rw [exec_eq_of_perm (h.perm_of_disjoint hc) (h.pairwise_before hc) hc.pairwise_before]
    _ = c.exec m v q := by
      rw [map_snd_layeredGates, exec_eq_exec_gates]

end Circuit.Exhausts

end QubitReuse
