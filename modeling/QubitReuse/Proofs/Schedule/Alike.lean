import QubitReuse.Proofs.Schedule.Lifetime
import QubitReuse.Proofs.Schedule.Lockstep
import QubitReuse.Proofs.Slot.Shape

namespace QubitReuse

namespace Gate

theorem matching_alike : Matching id (fun _ => True) Alike := by
  constructor
  case injective => exact fun _ _ _ _ h => h
  case used => exact fun _ _ _ _ _ => trivial
  case touches =>
    intro g g' hg r
    simp [hg.touches_iff]
  case alike =>
    intro g g' h h' hg hh
    rw [Alike, Alike, hg, hh]

theorem Alike.eq_of_isLoop {g g' : Gate} (h : g.Alike g') (hg : g.IsLoop) : g' = g := by
  cases g with
  | release q => exact absurd hg id
  | pair a b =>
    cases g' with
    | release q => exact absurd h not_alike_pair_release
    | pair c d =>
      obtain rfl : a = b := hg
      rcases alike_pair_iff.1 h with ⟨rfl, rfl⟩ | ⟨rfl, rfl⟩
      · rfl
      · rfl

theorem Alike.isLoop_iff {g g' : Gate} (h : g.Alike g') : g'.IsLoop ↔ g.IsLoop :=
  ⟨fun hg => eq_of_isLoop (Eq.symm h) hg ▸ hg, fun hg => h.eq_of_isLoop hg ▸ hg⟩

end Gate

theorem Layer.forall₂_alike_iff {l l' : Layer} :
    List.Forall₂ Gate.Alike l l' ↔ l.unoriented = l'.unoriented :=
  forall₂_map_eq_iff

theorem Layer.width_of_alike {l l' : Layer} (h : List.Forall₂ Gate.Alike l l') :
    l'.width = l.width := by
  rw [width, width, ends, ends, List.length_flatMap, List.length_flatMap]
  have hlens := forall₂_map_eq_iff.1 (h.imp fun _ _ hg => hg.perm_ends.length_eq)
  exact congrArg List.sum hlens.symm

theorem Layer.find?_isLoop_of_alike {l l' : Layer} (h : List.Forall₂ Gate.Alike l l') :
    (l'.find? fun g => decide g.IsLoop) = l.find? fun g => decide g.IsLoop := by
  induction h with
  | nil => rfl
  | @cons g g' l l' hg _ ih =>
    rw [List.find?_cons, List.find?_cons, ih, decide_eq_decide.2 hg.isLoop_iff]
    by_cases hloop : g.IsLoop
    · rw [decide_eq_true hloop, hg.eq_of_isLoop hloop]
    · rw [decide_eq_false hloop]

namespace Circuit

variable {c c' : Circuit}

theorem match_alike_iff : c.Match Gate.Alike c' ↔ c.Alike c' := by
  have hlayers : List.Forall₂ Gate.Alike =
      fun l l' => Layer.unoriented l = Layer.unoriented l' := by
    funext l l'
    exact propext Layer.forall₂_alike_iff
  rw [Match, hlayers, Alike, unoriented, unoriented, Circuit.mk.injEq, forall₂_map_eq_iff]

theorem Alike.mem_qubits_iff (h : c.Alike c') {q : Qubit} : q ∈ c'.qubits ↔ q ∈ c.qubits := by
  rw [Gate.matching_alike.mem_qubits (match_alike_iff.2 h)]
  simp

theorem Alike.size_qubits (h : c.Alike c') : c'.qubits.size = c.qubits.size :=
  QubitSet.size_eq_of_image (fun _ _ _ _ => id)
    fun _ => Gate.matching_alike.mem_qubits (match_alike_iff.2 h)

theorem Alike.width (h : c.Alike c') : c'.width = c.width := by
  have hwidths := forall₂_map_eq_iff.1
    ((match_alike_iff.2 h).imp fun _ _ hl => (Layer.width_of_alike hl).symm)
  rw [Circuit.width, Circuit.width, hwidths]

theorem Alike.pastCone (h : c.Alike c') (support : QubitSet) :
    (c.pastCone support).Alike (c'.pastCone support) :=
  match_alike_iff.1 (Gate.matching_alike.pastCone (match_alike_iff.2 h) fun _ _ => Iff.rfl)

theorem Alike.ancestorWidth (h : c.Alike c') (support : QubitSet) :
    c'.ancestorWidth support = c.ancestorWidth support := by
  rw [ancestorWidth_eq_size, ancestorWidth_eq_size, (h.pastCone support).size_qubits]

theorem Alike.subtract (h : c.Alike c') (d : Circuit) :
    (c'.subtract d).map unoriented = (c.subtract d).map unoriented := by
  rcases Gate.matching_alike.subtract (match_alike_iff.2 h) (match_alike_iff.2 (rfl : d.Alike d))
    with ⟨e, he, he'⟩ | ⟨rest, rest', hrest, hrest', halike⟩
  · rw [he, he']
  · rw [hrest, hrest']
    exact congrArg Except.ok (match_alike_iff.1 halike).symm

theorem Alike.validate (h : c.Alike c') : c'.validate = c.validate := by
  rw [Circuit.validate, Circuit.validate]
  have hfind := Layer.find?_isLoop_of_alike (List.rel_flatten (match_alike_iff.2 h))
  rw [gates, gates, hfind]

end Circuit

namespace Step.Match

variable {st st' : Step}

theorem sameLives (h : st.Match id Gate.Alike st') : st.SameLives st' := by
  intro q live
  cases h with
  | block hl =>
    have hends := Gate.matching_alike.exists_touches_iff hl (q := q) trivial
    rw [id, ← Layer.mem_ends, ← Layer.mem_ends] at hends
    rw [keepsLive, keepsLive, decide_eq_decide.2 hends]
  | release r => rfl

theorem layers (h : st.Match id Gate.Alike st') :
    List.Forall₂ (List.Forall₂ Gate.Alike) st.layers st'.layers := by
  cases h with
  | block hl =>
    cases hl with
    | nil => exact .nil
    | cons hg hl => exact .cons (.cons hg hl) .nil
  | release q => exact .cons (.cons rfl .nil) .nil

theorem unoriented (h : st.Match id Gate.Alike st') : st.unoriented = st'.unoriented := by
  cases h with
  | block hl => exact congrArg Step.block (Layer.forall₂_alike_iff.1 hl)
  | release q => rfl

end Step.Match

end QubitReuse
