import Mathlib.Data.List.Perm.Basic
import QubitReuse.Proofs.Circuit.Layered
import QubitReuse.Schedule.Order

/-!
The gates on one qubit. A schedule follows a circuit on a qubit if the gates it runs there can be
numbered by layers in ascending order; if it does on every qubit, the numberings agree, and there is
one order of all gates that shows it.
-/

namespace QubitReuse

def wireAt (q : Qubit) (xs : List (Nat × Gate)) : List (Nat × Gate) :=
  xs.flatMap fun x => .replicate (x.2.ends.count q) x

@[simp] theorem wire_cons (q : Qubit) (g : Gate) (gs : List Gate) :
    wire q (g :: gs) = .replicate (g.ends.count q) g ++ wire q gs := rfl

@[simp] theorem wireAt_cons (q : Qubit) (x : Nat × Gate) (xs : List (Nat × Gate)) :
    wireAt q (x :: xs) = .replicate (x.2.ends.count q) x ++ wireAt q xs := rfl

theorem wireAt_append (q : Qubit) (xs ys : List (Nat × Gate)) :
    wireAt q (xs ++ ys) = wireAt q xs ++ wireAt q ys := List.flatMap_append

theorem mem_flatMap_replicate {α : Type} {n : α → Nat} {x : α} {xs : List α} :
    x ∈ xs.flatMap (fun y => .replicate (n y) y) ↔ x ∈ xs ∧ 0 < n x := by
  rw [List.mem_flatMap]
  constructor
  · intro ⟨y, hy, hx⟩
    have ⟨hn, hxy⟩ := List.mem_replicate.1 hx
    exact hxy ▸ ⟨hy, Nat.pos_of_ne_zero hn⟩
  · intro ⟨hx, hn⟩
    exact ⟨x, hx, List.mem_replicate.2 ⟨Nat.ne_of_gt hn, rfl⟩⟩

theorem mem_wireAt {q : Qubit} {x : Nat × Gate} {xs : List (Nat × Gate)} :
    x ∈ wireAt q xs ↔ x ∈ xs ∧ x.2.Touches q :=
  mem_flatMap_replicate.trans (and_congr_right fun _ => List.count_pos_iff)

theorem mem_wire {q : Qubit} {g : Gate} {gs : List Gate} :
    g ∈ wire q gs ↔ g ∈ gs ∧ g.Touches q :=
  mem_flatMap_replicate.trans (and_congr_right fun _ => List.count_pos_iff)

theorem map_snd_wireAt (q : Qubit) (xs : List (Nat × Gate)) :
    (wireAt q xs).map Prod.snd = wire q (xs.map Prod.snd) := by
  induction xs with
  | nil => rfl
  | cons x xs ih => simp [ih]

theorem unoriented_wire (q : Qubit) (gs : List Gate) :
    Layer.unoriented (wire q gs) = wire q (Layer.unoriented gs) := by
  induction gs with
  | nil => rfl
  | cons g gs ih =>
    rw [Layer.unoriented_cons, wire_cons, wire_cons, ← ih, g.perm_ends_unoriented.count_eq]
    simp [Layer.unoriented]

theorem eq_filter_append_filter {k : Nat} {w : List (Nat × Gate)} (hw : w.Pairwise (·.1 ≤ ·.1))
    (hk : ∀ x ∈ w, k ≤ x.1) : w = w.filter (·.1 = k) ++ w.filter (·.1 ≠ k) := by
  induction w with
  | nil => rfl
  | cons x w ih =>
    have ⟨hx, hw⟩ := List.pairwise_cons.1 hw
    by_cases h : x.1 = k
    · have ihw := ih hw fun y hy => hk y (List.mem_cons_of_mem x hy)
      rw [List.filter_cons_of_pos (by simpa using h), List.filter_cons_of_neg (by simpa using h),
        List.cons_append, ← ihw]
    · have hlt : k < x.1 := Nat.lt_of_le_of_ne (hk x List.mem_cons_self) (Ne.symm h)
      have hne : ∀ y ∈ x :: w, y.1 ≠ k := by
        intro y hy
        cases List.mem_cons.1 hy with
        | inl hy => exact hy ▸ h
        | inr hy => exact Nat.ne_of_gt (Nat.lt_of_lt_of_le hlt (hx y hy))
      rw [List.filter_eq_nil_iff.2 fun y hy => by simpa using hne y hy,
        List.filter_eq_self.2 fun y hy => by simpa using hne y hy, List.nil_append]

/-- The gates can be numbered by these numbered ones so that no gate comes before a layer is done. -/
def InLayers (xs : List (Nat × Gate)) (gs : List Gate) : Prop :=
  ∃ w : List (Nat × Gate), w.Perm xs ∧ w.map Prod.snd = gs ∧ w.Pairwise (·.1 ≤ ·.1)

@[simp] theorem inLayers_nil {gs : List Gate} : InLayers [] gs ↔ gs = [] := by
  constructor
  · intro ⟨w, hw, hgs, _⟩
    rw [← hgs, List.perm_nil.1 hw]
    rfl
  · intro h
    exact ⟨[], .refl _, h.symm, .nil⟩

theorem inLayers_append_iff {k : Nat} {xs ys : List (Nat × Gate)} {gs : List Gate}
    (hxs : ∀ x ∈ xs, x.1 = k) (hys : ∀ y ∈ ys, k < y.1) :
    InLayers (xs ++ ys) gs ↔
      (gs.take xs.length).Perm (xs.map Prod.snd) ∧ InLayers ys (gs.drop xs.length) := by
  constructor
  · intro ⟨w, hw, hgs, hsorted⟩
    have hle : ∀ x ∈ w, k ≤ x.1 := by
      intro x hx
      cases List.mem_append.1 (hw.mem_iff.1 hx) with
      | inl hx => exact Nat.le_of_eq (hxs x hx).symm
      | inr hx => exact Nat.le_of_lt (hys x hx)
    have hsplit := eq_filter_append_filter hsorted hle
    have hfirst : (w.filter (·.1 = k)).Perm xs := by
      have hx : xs.filter (·.1 = k) = xs := List.filter_eq_self.2 (by simpa using hxs)
      have hy : ys.filter (·.1 = k) = [] :=
        List.filter_eq_nil_iff.2 fun y hy => by simpa using Nat.ne_of_gt (hys y hy)
      have hf := hw.filter (·.1 = k)
      rwa [List.filter_append, hx, hy, List.append_nil] at hf
    have hrest : (w.filter (·.1 ≠ k)).Perm ys := by
      rw [hsplit] at hw
      exact (List.perm_append_left_iff _).1 (hw.trans (hfirst.symm.append_right _))
    have hlen := (hfirst.map Prod.snd).length_eq.trans (List.length_map Prod.snd)
    rw [← hgs, hsplit, List.map_append, List.take_left' hlen, List.drop_left' hlen]
    exact ⟨hfirst.map _, _, hrest, rfl, hsorted.filter _⟩
  · intro ⟨hperm, w, hw, hgs, hsorted⟩
    have hlabel : ((gs.take xs.length).map (k, ·)).Perm xs := by
      refine (hperm.map (k, ·)).trans ?_
      rw [List.map_map, List.map_congr_left (g := id), List.map_id]
      intro x hx
      exact Prod.ext (hxs x hx).symm rfl
    refine ⟨_, hlabel.append hw, ?_, List.pairwise_append.2 ⟨?_, hsorted, ?_⟩⟩
    · rw [List.map_append, hgs, List.map_map]
      exact (congrArg (· ++ _) (List.map_id _)).trans (List.take_append_drop _ _)
    · exact List.pairwise_map.2 (List.pairwise_of_forall fun _ _ => Nat.le_refl _)
    · intro x hx y hy
      rw [hxs x (hlabel.mem_iff.1 hx)]
      exact Nat.le_of_lt (hys y (hw.mem_iff.1 hy))

namespace Strand

def numbered (s : Strand) : List (Nat × Gate) := (Layer.unoriented s.gates).map (s.layer, ·)

theorem fst_of_mem_numbered {s : Strand} {x : Nat × Gate} (h : x ∈ s.numbered) :
    x.1 = s.layer := by
  have ⟨g, _, hg⟩ := List.mem_map.1 h
  exact hg ▸ rfl

@[simp] theorem map_snd_numbered (s : Strand) :
    s.numbered.map Prod.snd = Layer.unoriented s.gates := by
  simp [numbered, Function.comp_def]

@[simp] theorem length_numbered (s : Strand) : s.numbered.length = s.gates.length := by
  simp [numbered, Layer.unoriented]

end Strand

namespace Schedule

theorem matchStrands_nil_iff {gs : List Gate} : matchStrands [] gs = .ok () ↔ gs = [] := by
  cases gs with
  | nil => exact iff_of_true rfl rfl
  | cons g gs => exact iff_of_false nofun nofun

theorem matchStrands_cons_eq_ok_iff {s : Strand} {ss : List Strand} {gs : List Gate} :
    matchStrands (s :: ss) gs = .ok () ↔
      (Layer.unoriented (gs.take s.gates.length)).Perm (Layer.unoriented s.gates) ∧
        matchStrands ss (gs.drop s.gates.length) = .ok () := by
  rw [matchStrands]
  split
  · rename_i hlen
    refine iff_of_false (fun h => by cases h) fun h => ?_
    have hl := h.1.length_eq
    simp only [Layer.length_unoriented, List.length_take] at hl
    omega
  · split
    · rename_i hperm
      exact (and_iff_right (List.isPerm_iff.1 hperm).symm).symm
    · rename_i hperm
      exact iff_of_false (fun h => by cases h) fun h => hperm (List.isPerm_iff.2 h.1.symm)

theorem matchStrands_eq_ok_iff {ss : List Strand} {gs : List Gate}
    (hss : ss.Pairwise (·.layer < ·.layer)) :
    matchStrands ss gs = .ok () ↔
      InLayers (ss.flatMap Strand.numbered) (Layer.unoriented gs) := by
  induction ss generalizing gs with
  | nil =>
    rw [matchStrands_nil_iff, List.flatMap_nil, inLayers_nil, Layer.unoriented_eq_nil_iff]
  | cons s ss ih =>
    have ⟨hs, hss⟩ := List.pairwise_cons.1 hss
    have hlater : ∀ x ∈ ss.flatMap Strand.numbered, s.layer < x.1 := by
      intro x hx
      have ⟨s', hs', hx⟩ := List.mem_flatMap.1 hx
      exact Strand.fst_of_mem_numbered hx ▸ hs s' hs'
    rw [matchStrands_cons_eq_ok_iff, List.flatMap_cons,
      inLayers_append_iff (fun x => Strand.fst_of_mem_numbered) hlater, Strand.length_numbered,
      Strand.map_snd_numbered, ← Layer.unoriented_take, ← Layer.unoriented_drop, ← ih hss]

end Schedule

theorem numbered_strand_wire (q : Qubit) (n : Nat) (l : Layer) :
    Strand.numbered ⟨n, wire q l⟩ = wireAt q ((l.map (n, ·)).map unorientedAt) := by
  rw [Strand.numbered, unoriented_wire, map_unorientedAt_layer]
  induction Layer.unoriented l with
  | nil => rfl
  | cons g l ih => simp [ih]

theorem flatMap_numbered_strands (q : Qubit) (n : Nat) (ls : List Layer) :
    ((((ls.zipIdx n).map fun (l, i) => (⟨i, wire q l⟩ : Strand)).filter
        (!·.gates.isEmpty)).flatMap Strand.numbered) =
      wireAt q ((numbered n ls).map unorientedAt) := by
  induction ls generalizing n with
  | nil => rfl
  | cons l ls ih =>
    simp only [List.zipIdx_cons, List.map_cons, List.filter_cons, numbered_cons, List.map_append,
      wireAt_append, ← ih, ← numbered_strand_wire]
    split
    · rfl
    · rename_i h
      have hnil : wire q l = [] := by simpa using h
      rw [hnil]
      rfl

namespace Circuit

theorem flatMap_strands (c : Circuit) (q : Qubit) :
    (c.strands q).flatMap Strand.numbered = wireAt q (c.layeredGates.map unorientedAt) :=
  flatMap_numbered_strands q 0 c.layers

theorem pairwise_strands (c : Circuit) (q : Qubit) :
    (c.strands q).Pairwise (·.layer < ·.layer) := by
  apply List.Pairwise.filter
  apply List.pairwise_map.2
  have h : ((c.layers.zipIdx).map Prod.snd).Pairwise (· < ·) := by
    rw [List.zipIdx_map_snd]
    exact List.pairwise_lt_range'
  exact List.pairwise_map.1 h

theorem matchStrands_strands_eq_ok_iff {c : Circuit} {q : Qubit} {gs : List Gate} :
    Schedule.matchStrands (c.strands q) (wire q gs) = .ok () ↔
      InLayers (wireAt q (c.layeredGates.map unorientedAt)) (wire q (Layer.unoriented gs)) := by
  rw [Schedule.matchStrands_eq_ok_iff (c.pairwise_strands q), flatMap_strands, unoriented_wire]

end Circuit

end QubitReuse
