import Mathlib.Data.List.Induction
import Mathlib.Data.List.Zip
import QubitReuse.Proofs.Cone.Algebra

namespace QubitReuse

namespace Layer

def copies (l : Layer) (g : Gate) : Nat := l.countP fun h => decide (g.Alike h)

/-- Of each class of alike gates the first ones go: as many as the second layer has of it, or all. -/
def survivors (l k : Layer) : Layer :=
  (l.zipIdx.filter fun x =>
    decide (min (l.copies x.1) (k.copies x.1) ≤ copies (l.take x.2) x.1)).map Prod.fst

theorem copies_eq_count (l : Layer) (g : Gate) : l.copies g = l.unoriented.count g.unoriented := by
  rw [copies, unoriented, List.count_eq_countP, List.countP_map]
  apply List.countP_congr
  intro h _
  rw [decide_eq_true_iff, Function.comp_apply, beq_iff_eq]
  exact eq_comm

theorem minus_append_singleton (gs hs : Layer) (g : Gate) :
    minus (gs ++ [g]) hs = minus gs hs ++ if hs.copies g ≤ gs.copies g then [g] else [] := by
  have hmem : g.unoriented ∈ (minus hs gs).unoriented ↔ ¬ hs.copies g ≤ gs.copies g := by
    rw [← List.count_pos_iff, count_unoriented_minus, copies_eq_count, copies_eq_count]
    omega
  rw [minus_append]
  by_cases hg : hs.copies g ≤ gs.copies g
  · rw [if_pos hg, minus_cons_of_not_mem fun h => hmem.1 h hg]
    rfl
  · rw [if_neg hg, minus_cons_of_mem (hmem.2 hg)]
    rfl

theorem copies_take_lt {x : Gate × Nat} {l : Layer} (h : x ∈ l.zipIdx) :
    copies (l.take x.2) x.1 < l.copies x.1 := by
  have hx : l[x.2]? = some x.1 := List.mem_zipIdx_iff_getElem?.1 h
  calc
    copies (l.take x.2) x.1 < copies (l.take x.2) x.1 + 1 := Nat.lt_succ_self _
    _ = copies (l.take (x.2 + 1)) x.1 := by
      rw [List.take_add_one, hx, copies, copies, List.countP_append]
      simp [Gate.Alike]
    _ ≤ l.copies x.1 := (List.take_sublist _ l).countP_le

theorem minus_eq_filter_zipIdx (gs hs : Layer) :
    minus gs hs = (gs.zipIdx.filter fun x =>
      decide (hs.copies x.1 ≤ copies (gs.take x.2) x.1)).map Prod.fst := by
  induction gs using List.reverseRecOn with
  | nil => rfl
  | append_singleton gs g ih =>
    have hbefore : ∀ x ∈ gs.zipIdx, (gs ++ [g]).take x.2 = gs.take x.2 := by
      intro x hx
      have hx : gs[x.2]? = some x.1 := List.mem_zipIdx_iff_getElem?.1 hx
      exact List.take_append_of_le_length (Nat.le_of_lt (List.getElem?_eq_some_iff.1 hx).1)
    rw [minus_append_singleton, ih, List.zipIdx_append, List.filter_append, List.map_append]
    congr 1
    · apply congrArg
      apply List.filter_congr
      intro x hx
      rw [hbefore x hx]
    · rw [Nat.zero_add, List.zipIdx_singleton]
      by_cases hg : copies hs g ≤ copies gs g
      · simp [hg]
      · simp [hg]

theorem minus_eq_survivors : minus = survivors := by
  funext gs hs
  rw [minus_eq_filter_zipIdx, survivors]
  apply congrArg
  apply List.filter_congr
  intro x hx
  have hlt := copies_take_lt hx
  rw [decide_eq_decide]
  omega

theorem perm_minus_append {l k : Layer} (h : ∀ g, k.copies g ≤ l.copies g) :
    (unoriented (minus l k ++ k)).Perm l.unoriented := by
  rw [unoriented_append]
  refine List.perm_append_comm.trans (perm_append_minus_of_count_le fun u hu => ?_)
  obtain ⟨g, -, rfl⟩ := List.mem_map.1 hu
  rw [← copies_eq_count, ← copies_eq_count]
  exact h g

end Layer

namespace Circuit

variable {a b c d : Circuit}

def beside (b c : Circuit) : Circuit := ⟨List.zipWith (· ++ ·) b.layers c.layers⟩

def Within (b a : Circuit) : Prop :=
  List.Forall₂ (fun k l => ∀ g, Layer.copies k g ≤ Layer.copies l g) b.layers a.layers

theorem depth_beside (h : b.depth = c.depth) : (b.beside c).depth = c.depth := by
  rw [depth, beside, List.length_zipWith]
  exact Nat.min_eq_right (Nat.le_of_eq h.symm)

theorem numGates_beside (h : b.depth = c.depth) :
    (b.beside c).numGates = b.numGates + c.numGates := by
  obtain ⟨ls⟩ := b
  obtain ⟨ls'⟩ := c
  simp only [depth, numGates, gates, beside] at h ⊢
  induction ls generalizing ls' with
  | nil =>
    rw [List.length_eq_zero_iff.1 h.symm]
    rfl
  | cons l ls ih =>
    cases ls' with
    | nil => cases h
    | cons l' ls' =>
      have hrest := ih ls' (Nat.succ.inj h)
      simp only [List.zipWith_cons_cons, List.flatten_cons, List.length_append] at hrest ⊢
      omega

theorem subtract_eq (h : b.depth = a.depth) :
    a.subtract b = .ok ⟨List.zipWith Layer.minus a.layers b.layers⟩ := by
  rw [subtract, if_pos h.symm]

theorem depth_of_subtract (h : a.subtract b = .ok d) : d.depth = a.depth := by
  rw [subtract] at h
  split at h
  · rename_i hdepth
    cases h
    rw [depth, List.length_zipWith]
    exact Nat.min_eq_left (Nat.le_of_eq hdepth)
  · cases h

theorem subtract_subtract (hb : b.depth = a.depth) (hc : c.depth = a.depth) :
    (a.subtract b >>= (·.subtract c)) = a.subtract (b.beside c) := by
  have hd := subtract_eq hb
  rw [subtract_eq ((depth_beside (hb.trans hc.symm)).trans hc), hd]
  refine (subtract_eq (hc.trans (depth_of_subtract hd).symm)).trans ?_
  rw [beside, List.zipWith_zipWith_left, List.zipWith_zipWith_right]
  simp only [Layer.minus_minus]

theorem zipWith_minus_comm (ls bs cs : List Layer) :
    List.zipWith Layer.minus ls (List.zipWith (· ++ ·) bs cs) =
      List.zipWith Layer.minus ls (List.zipWith (· ++ ·) cs bs) := by
  induction ls generalizing bs cs with
  | nil => rfl
  | cons l ls ih =>
    cases bs with
    | nil => simp
    | cons k bs =>
      cases cs with
      | nil => rfl
      | cons k' cs =>
        simp only [List.zipWith_cons_cons, ih bs cs, ← Layer.minus_minus, Layer.minus_right_comm]

theorem subtract_beside_comm (hb : b.depth = a.depth) (hc : c.depth = a.depth) :
    a.subtract (b.beside c) = a.subtract (c.beside b) := by
  rw [subtract_eq ((depth_beside (hb.trans hc.symm)).trans hc),
    subtract_eq ((depth_beside (hc.trans hb.symm)).trans hb)]
  exact congrArg (fun ls => Except.ok (mk ls)) (zipWith_minus_comm _ _ _)

theorem subtract_self (a : Circuit) : ∃ d, a.subtract a = .ok d ∧ ∀ l ∈ d.layers, l = [] := by
  refine ⟨_, subtract_eq rfl, fun l hl => ?_⟩
  rw [List.zipWith_self] at hl
  obtain ⟨k, -, rfl⟩ := List.mem_map.1 hl
  have hlength := (Layer.perm_append_minus (.refl k)).length_eq
  simpa using hlength

theorem within_pastCone (a : Circuit) (s : QubitSet) : (a.pastCone s).Within a :=
  (Sweep.forall₂_sublist_layers a.layers _).imp fun _ _ hk _ => hk.countP_le

namespace Within

theorem depth_eq (h : b.Within a) : b.depth = a.depth := List.Forall₂.length_eq h

theorem forall₂_perm (h : b.Within a) (hd : a.subtract b = .ok d) :
    List.Forall₂ (fun l' l => (Layer.unoriented l').Perm l.unoriented) (d.beside b).layers
      a.layers := by
  rw [subtract_eq h.depth_eq] at hd
  cases hd
  rw [Within] at h
  simp only [beside]
  generalize a.layers = ls at h ⊢
  generalize b.layers = ks at h ⊢
  induction h with
  | nil => exact .nil
  | cons hk _ ih => exact .cons (Layer.perm_minus_append hk) ih

theorem numGates_add (h : b.Within a) (hd : a.subtract b = .ok d) :
    d.numGates + b.numGates = a.numGates := by
  rw [← numGates_beside ((depth_of_subtract hd).trans h.depth_eq.symm)]
  have hlengths := forall₂_map_eq_iff.1 ((h.forall₂_perm hd).imp fun _ _ hl => hl.length_eq)
  simp only [Layer.length_unoriented] at hlengths
  rw [numGates, numGates, gates, gates, List.length_flatten, List.length_flatten, hlengths]

end Within

theorem subtract_truncates (hb : b.depth = a.depth) (hc : c.depth = a.depth) :
    a.subtract b = .ok ⟨List.zipWith Layer.survivors a.layers b.layers⟩ ∧
    (∃ d, (a.subtract b >>= (·.subtract c)) = .ok d ∧ a.subtract (b.beside c) = .ok d ∧
      (a.subtract c >>= (·.subtract b)) = .ok d) ∧
    (∃ d, a.subtract a = .ok d ∧ ∀ l ∈ d.layers, l = []) ∧
    (b.Within a → ∃ d, a.subtract b = .ok d ∧ d.numGates + b.numGates = a.numGates ∧
      List.Forall₂ (fun l' l => (Layer.unoriented l').Perm l.unoriented) (d.beside b).layers
        a.layers) ∧
    ∀ s, (a.pastCone s).Within a := by
  refine ⟨?_, ?_, subtract_self a, ?_, within_pastCone a⟩
  · rw [← Layer.minus_eq_survivors]
    exact subtract_eq hb
  · have hbc := subtract_eq ((depth_beside (hb.trans hc.symm)).trans hc)
    refine ⟨_, (subtract_subtract hb hc).trans hbc, hbc, ?_⟩
    rw [subtract_subtract hc hb, subtract_beside_comm hc hb, hbc]
  · intro h
    exact ⟨_, subtract_eq hb, h.numGates_add (subtract_eq hb), h.forall₂_perm (subtract_eq hb)⟩

/-- The pair that is stored the other way round takes the first copy away, and the last one stays. -/
theorem subtract_truncates_turned :
    (∃ d, subtract ⟨[[.pair ⟨1⟩ ⟨2⟩, .pair ⟨0⟩ ⟨1⟩, .pair ⟨1⟩ ⟨2⟩]]⟩
        ⟨[[.pair ⟨0⟩ ⟨1⟩, .pair ⟨2⟩ ⟨1⟩]]⟩ = .ok d ∧
      d = ⟨[Layer.survivors [.pair ⟨1⟩ ⟨2⟩, .pair ⟨0⟩ ⟨1⟩, .pair ⟨1⟩ ⟨2⟩]
        [.pair ⟨0⟩ ⟨1⟩, .pair ⟨2⟩ ⟨1⟩]]⟩ ∧ d.layers = [[.pair ⟨1⟩ ⟨2⟩]]) ∧
    (∃ d, subtract ⟨[[.pair ⟨1⟩ ⟨2⟩, .pair ⟨0⟩ ⟨1⟩, .pair ⟨1⟩ ⟨2⟩]]⟩
        (beside ⟨[[.pair ⟨0⟩ ⟨1⟩, .pair ⟨2⟩ ⟨1⟩]]⟩ ⟨[[.pair ⟨1⟩ ⟨2⟩]]⟩) = .ok d ∧ d.isIdle = true) ∧
    ∃ d, subtract ⟨[[.pair ⟨1⟩ ⟨2⟩, .pair ⟨0⟩ ⟨1⟩, .pair ⟨1⟩ ⟨2⟩]]⟩
        ⟨[[.pair ⟨0⟩ ⟨1⟩, .pair ⟨2⟩ ⟨1⟩]]⟩ = .ok d ∧ d.numGates + 2 = 3 := by
  have hwithin : Within ⟨[[.pair ⟨0⟩ ⟨1⟩, .pair ⟨2⟩ ⟨1⟩]]⟩
      ⟨[[.pair ⟨1⟩ ⟨2⟩, .pair ⟨0⟩ ⟨1⟩, .pair ⟨1⟩ ⟨2⟩]]⟩ := by
    refine .cons (fun g => ?_) .nil
    rw [Layer.copies_eq_count, Layer.copies_eq_count]
    exact List.Sublist.count_le _ (by decide)
  obtain ⟨hfirst, ⟨d, -, hboth, -⟩, -, hcount, -⟩ := subtract_truncates
    (a := ⟨[[.pair ⟨1⟩ ⟨2⟩, .pair ⟨0⟩ ⟨1⟩, .pair ⟨1⟩ ⟨2⟩]]⟩)
    (b := ⟨[[.pair ⟨0⟩ ⟨1⟩, .pair ⟨2⟩ ⟨1⟩]]⟩) (c := ⟨[[.pair ⟨1⟩ ⟨2⟩]]⟩) rfl rfl
  obtain ⟨e, he, hgates, -⟩ := hcount hwithin
  refine ⟨⟨_, hfirst, rfl, by decide⟩, ⟨d, hboth, ?_⟩, e, he, hgates⟩
  cases hboth
  decide

end Circuit

end QubitReuse
