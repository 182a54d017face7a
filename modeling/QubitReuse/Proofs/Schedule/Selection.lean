import Mathlib.Data.List.Induction
import QubitReuse.Proofs.Schedule.Exhaustion

namespace QubitReuse

namespace TieBreak

/-- Of two qubits with equally wide cones the first one goes. -/
def Favors : TieBreak → Qubit → Qubit → Prop
  | lowestId, q, r => q < r
  | highestId, q, r => r < q

theorem Favors.asymm {t : TieBreak} {q r : Qubit} (h : t.Favors q r) : ¬ t.Favors r q := by
  cases t with
  | lowestId => exact Nat.lt_asymm h
  | highestId => exact Nat.lt_asymm h

theorem favors_or_favors (t : TieBreak) {q r : Qubit} (h : q ≠ r) :
    t.Favors q r ∨ t.Favors r q := by
  have hlt : q < r ∨ r < q := (Decidable.em (q < r)).imp_right fun hqr => Qubit.lt_of_not_lt hqr h
  cases t with
  | lowestId => exact hlt
  | highestId => exact hlt.symm

theorem eq_of_favors {t t' : TieBreak} {f : Qubit → Qubit} {q r : Qubit}
    (hqr : t.Favors q r → t'.Favors (f q) (f r)) (hrq : t.Favors r q → t'.Favors (f r) (f q))
    (h : f q = f r) : q = r := by
  by_contra hne
  rw [h] at hqr hrq
  rcases t.favors_or_favors hne with hfavors | hfavors
  · exact (hqr hfavors).asymm (hqr hfavors)
  · exact (hrq hfavors).asymm (hrq hfavors)

structure Chooses (t : TieBreak) (width : Qubit → Nat) (qs : List Qubit) (q : Qubit) : Prop where
  mem : q ∈ qs
  least : ∀ r ∈ qs, width q ≤ width r
  favored : ∀ r ∈ qs, width r = width q → r ≠ q → t.Favors q r

variable {t : TieBreak} {width : Qubit → Nat} {qs : List Qubit} {p q r : Qubit} {w : Nat}

theorem Chooses.unique (hq : t.Chooses width qs q) (hr : t.Chooses width qs r) : q = r := by
  have hwidth := Nat.le_antisymm (hq.least r hr.mem) (hr.least q hq.mem)
  by_contra hne
  exact (hq.favored r hr.mem hwidth.symm (Ne.symm hne)).asymm (hr.favored q hq.mem hwidth hne)

theorem prefers_iff {best : Nat} :
    t.prefers w best = true ↔ w < best ∨ w = best ∧ t = highestId := by
  cases t with
  | lowestId => simp [prefers]
  | highestId => simp [prefers, Nat.le_iff_lt_or_eq]

theorem Chooses.append_singleton (hp : t.Chooses width qs p) (hr : ∀ q ∈ qs, q < r) :
    t.Chooses width (qs ++ [r]) (if t.prefers (width r) (width p) then r else p) := by
  split
  · rename_i hprefers
    have hle : width r ≤ width p := by
      rcases prefers_iff.1 hprefers with hlt | ⟨heq, _⟩
      · exact Nat.le_of_lt hlt
      · exact Nat.le_of_eq heq
    refine ⟨List.mem_append_right _ List.mem_cons_self, ?_, ?_⟩
    · intro q hq
      rcases List.mem_append.1 hq with hq | hq
      · exact Nat.le_trans hle (hp.least q hq)
      · exact Nat.le_of_eq (congrArg width (List.mem_singleton.1 hq).symm)
    · intro q hq hwidth hne
      rcases List.mem_append.1 hq with hq | hq
      · rcases prefers_iff.1 hprefers with hlt | ⟨_, rfl⟩
        · exact absurd (hp.least q hq) (Nat.not_le_of_lt (hwidth ▸ hlt))
        · exact hr q hq
      · exact absurd (List.mem_singleton.1 hq) hne
  · rename_i hprefers
    have hle : width p ≤ width r :=
      Nat.le_of_not_lt fun hlt => hprefers (prefers_iff.2 (.inl hlt))
    refine ⟨List.mem_append_left _ hp.mem, ?_, ?_⟩
    · intro q hq
      rcases List.mem_append.1 hq with hq | hq
      · exact hp.least q hq
      · exact List.mem_singleton.1 hq ▸ hle
    · intro q hq hwidth hne
      rcases List.mem_append.1 hq with hq | hq
      · exact hp.favored q hq hwidth hne
      · cases t with
        | lowestId => exact List.mem_singleton.1 hq ▸ hr p hp.mem
        | highestId =>
          rw [List.mem_singleton.1 hq] at hwidth
          exact absurd (prefers_iff.2 (.inr ⟨hwidth, rfl⟩)) hprefers

theorem chooses_of_foldl_select (hqs : qs.Pairwise (· < ·))
    (h : qs.foldl (t.select width) none = some (q, w)) :
    t.Chooses width qs q ∧ w = width q := by
  induction qs using List.reverseRecOn generalizing q w with
  | nil => cases h
  | append_singleton qs r ih =>
    have ⟨hbefore, _, hlast⟩ := List.pairwise_append.1 hqs
    rw [List.foldl_append, List.foldl_cons, List.foldl_nil] at h
    cases hbest : qs.foldl (t.select width) none with
    | none =>
      have hnil : qs = [] := by
        cases qs with
        | nil => rfl
        | cons p qs => exact absurd hbest foldl_select_some_ne_none
      rw [hbest, select, Option.some.injEq, Prod.mk.injEq] at h
      obtain ⟨rfl, rfl⟩ := h
      subst hnil
      refine ⟨⟨List.mem_cons_self, ?_, ?_⟩, rfl⟩
      · intro p hp
        exact Nat.le_of_eq (congrArg width (List.mem_singleton.1 hp).symm)
      · intro p hp _ hne
        exact absurd (List.mem_singleton.1 hp) hne
    | some best =>
      obtain ⟨p, least⟩ := best
      obtain ⟨hp, rfl⟩ := ih hbefore hbest
      have hchooses := hp.append_singleton fun q hq => hlast q hq r List.mem_cons_self
      rw [hbest, select] at h
      split at h
      · rename_i hprefers
        cases h
        rw [if_pos hprefers] at hchooses
        exact ⟨hchooses, rfl⟩
      · rename_i hprefers
        cases h
        rw [if_neg hprefers] at hchooses
        exact ⟨hchooses, rfl⟩

end TieBreak

namespace Circuit

variable {c : Circuit} {t : TieBreak} {q : Qubit} {w : Nat}

theorem exists_narrowest (t : TieBreak) (h : q ∈ c.qubits) :
    ∃ r w, c.narrowest t = some (r, w) := by
  cases hn : c.narrowest t with
  | none =>
    have ⟨g, hg, _⟩ := mem_qubits.1 h
    rw [gates_eq_nil_of_narrowest hn] at hg
    cases hg
  | some best => exact ⟨best.1, best.2, rfl⟩

theorem narrowest_eq_some_iff : c.narrowest t = some (q, w) ↔
    t.Chooses (fun q => c.ancestorWidth (.single q)) c.qubits.toList q ∧
      w = c.ancestorWidth (.single q) := by
  constructor
  · exact TieBreak.chooses_of_foldl_select c.qubits.ascending
  · rintro ⟨hq, rfl⟩
    have ⟨r, w, hr⟩ := exists_narrowest t hq.mem
    obtain ⟨hchooses, rfl⟩ := TieBreak.chooses_of_foldl_select c.qubits.ascending hr
    rw [hr, hq.unique hchooses]

end Circuit

end QubitReuse
