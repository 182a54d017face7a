import Mathlib.Data.List.Count
import QubitReuse.Circuit.Difference

namespace QubitReuse.Layer

variable {g : Gate} {gs hs ks : Layer}

@[simp] theorem unoriented_cons (g : Gate) (l : Layer) :
    unoriented (g :: l) = g.unoriented :: unoriented l := rfl

@[simp] theorem unoriented_append (l l' : Layer) :
    unoriented (l ++ l') = l.unoriented ++ l'.unoriented := List.map_append

@[simp] theorem length_unoriented (l : Layer) : l.unoriented.length = l.length := List.length_map _

theorem unoriented_eq_nil_iff {l : Layer} : l.unoriented = [] ↔ l = [] := List.map_eq_nil_iff

theorem mem_ends_unoriented {l : Layer} {q : Qubit} : q ∈ ends l.unoriented ↔ q ∈ ends l := by
  simp [mem_ends, unoriented]

theorem unoriented_take (n : Nat) (l : Layer) : unoriented (l.take n) = l.unoriented.take n :=
  List.map_take

theorem unoriented_drop (n : Nat) (l : Layer) : unoriented (l.drop n) = l.unoriented.drop n :=
  List.map_drop

theorem any_alike_iff :
    (hs.any fun h => decide (g.Alike h)) = true ↔ g.unoriented ∈ hs.unoriented := by
  simp only [List.any_eq_true, unoriented, List.mem_map]
  exact exists_congr fun h => and_congr_right fun _ => decide_eq_true_iff.trans eq_comm

theorem unoriented_eraseP_alike (g : Gate) (hs : Layer) :
    unoriented (hs.eraseP fun h => decide (g.Alike h)) = hs.unoriented.erase g.unoriented := by
  rw [List.erase_eq_eraseP, unoriented, unoriented, List.eraseP_map]
  rfl

theorem minus_cons_of_mem (h : g.unoriented ∈ hs.unoriented) :
    minus (g :: gs) hs = minus gs (hs.eraseP fun h => decide (g.Alike h)) := by
  rw [minus, if_pos (any_alike_iff.2 h)]

theorem minus_cons_of_not_mem (h : g.unoriented ∉ hs.unoriented) :
    minus (g :: gs) hs = g :: minus gs hs := by
  rw [minus, if_neg (any_alike_iff.not.2 h)]

theorem unoriented_minus (gs hs : Layer) :
    (minus gs hs).unoriented = gs.unoriented.diff hs.unoriented := by
  induction gs generalizing hs with
  | nil => simp [minus, unoriented, List.nil_diff]
  | cons g gs ih =>
    rw [unoriented_cons, List.cons_diff]
    by_cases h : g.unoriented ∈ hs.unoriented
    · rw [minus_cons_of_mem h, if_pos h, ih, unoriented_eraseP_alike]
    · rw [minus_cons_of_not_mem h, if_neg h, unoriented_cons, ih]

theorem count_unoriented_minus (u : Gate) (gs hs : Layer) :
    (minus gs hs).unoriented.count u = gs.unoriented.count u - hs.unoriented.count u := by
  rw [unoriented_minus, List.count_diff]

theorem minus_sublist (gs hs : Layer) : (minus gs hs).Sublist gs := by
  induction gs generalizing hs with
  | nil => exact .slnil
  | cons g gs ih =>
    rw [minus]
    split
    · exact (ih _).cons g
    · exact (ih _).cons_cons g

theorem perm_append_minus_of_count_le
    (h : ∀ u ∈ ks.unoriented, ks.unoriented.count u ≤ gs.unoriented.count u) :
    (ks.unoriented ++ (minus gs ks).unoriented).Perm gs.unoriented := by
  rw [unoriented_minus]
  exact List.subperm_append_diff_self_of_count_le h

theorem perm_append_minus (h : ks.Sublist gs) :
    (ks.unoriented ++ (minus gs ks).unoriented).Perm gs.unoriented :=
  perm_append_minus_of_count_le fun u _ => (h.map _).count_le u

theorem minus_congr (h : hs.unoriented.Perm ks.unoriented) : minus gs hs = minus gs ks := by
  induction gs generalizing hs ks with
  | nil => rfl
  | cons g gs ih =>
    by_cases hg : g.unoriented ∈ hs.unoriented
    · rw [minus_cons_of_mem hg, minus_cons_of_mem (h.mem_iff.1 hg)]
      apply ih
      rw [unoriented_eraseP_alike, unoriented_eraseP_alike]
      exact h.erase _
    · rw [minus_cons_of_not_mem hg, minus_cons_of_not_mem (h.mem_iff.not.1 hg), ih h]

theorem minus_minus (gs hs ks : Layer) : minus (minus gs hs) ks = minus gs (hs ++ ks) := by
  induction gs generalizing hs ks with
  | nil => rfl
  | cons g gs ih =>
    by_cases hg : g.unoriented ∈ hs.unoriented
    · have happ : g.unoriented ∈ unoriented (hs ++ ks) := by simp [hg]
      rw [minus_cons_of_mem hg, minus_cons_of_mem happ, ih]
      apply minus_congr
      rw [unoriented_append, unoriented_eraseP_alike, unoriented_eraseP_alike, unoriented_append,
        List.erase_append_left _ hg]
    · rw [minus_cons_of_not_mem hg]
      by_cases hg' : g.unoriented ∈ ks.unoriented
      · have happ : g.unoriented ∈ unoriented (hs ++ ks) := by simp [hg']
        rw [minus_cons_of_mem hg', minus_cons_of_mem happ, ih]
        apply minus_congr
        rw [unoriented_append, unoriented_eraseP_alike, unoriented_eraseP_alike, unoriented_append,
          List.erase_append_right _ hg]
      · have happ : g.unoriented ∉ unoriented (hs ++ ks) := by simp [hg, hg']
        rw [minus_cons_of_not_mem hg', minus_cons_of_not_mem happ, ih]

theorem minus_right_comm (gs hs ks : Layer) : minus (minus gs hs) ks = minus (minus gs ks) hs := by
  rw [minus_minus, minus_minus]
  apply minus_congr
  rw [unoriented_append, unoriented_append]
  exact List.perm_append_comm

/-- The first gates of a layer use up what is taken away before the others are met. -/
theorem minus_append (gs gs' hs : Layer) :
    minus (gs ++ gs') hs = minus gs hs ++ minus gs' (minus hs gs) := by
  induction gs generalizing hs with
  | nil =>
    apply minus_congr
    rw [unoriented_minus]
    exact .refl _
  | cons g gs ih =>
    rw [List.cons_append]
    by_cases hg : g.unoriented ∈ hs.unoriented
    · rw [minus_cons_of_mem hg, minus_cons_of_mem hg, ih]
      apply congrArg
      apply minus_congr
      rw [unoriented_minus, unoriented_minus, unoriented_cons, List.diff_cons,
        unoriented_eraseP_alike]
    · rw [minus_cons_of_not_mem hg, minus_cons_of_not_mem hg, ih, List.cons_append]
      apply congrArg
      apply congrArg
      apply minus_congr
      rw [unoriented_minus, unoriented_minus, unoriented_cons, List.diff_cons,
        List.erase_of_not_mem hg]

end QubitReuse.Layer
