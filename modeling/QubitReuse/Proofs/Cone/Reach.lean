import Mathlib.Data.List.Chain
import QubitReuse.Cone.Reach
import QubitReuse.Proofs.Cone.Values

namespace QubitReuse

namespace Sweep

def keepsAt (l : Layer) (s : Sweep) (j : Nat) : Bool :=
  l[j]?.any fun g => g.ends.any (layer (l.take j) s).2.live.contains

variable {l : Layer} {s : Sweep} {i j : Nat} {g : Gate} {q : Qubit}

theorem layer_append_singleton (l : Layer) (g : Gate) (s : Sweep) :
    (layer (l ++ [g]) s).1 = (layer l s).1 ++
      if g.ends.any (layer l s).2.live.contains then [g] else [] := by
  induction l generalizing s with
  | nil => by_cases hg : g.ends.any s.live.contains <;> simp [layer, hg]
  | cons h l ih =>
    simp only [List.cons_append, layer]
    split
    · simp [ih]
    · exact ih s

theorem keepsAt_take (l : Layer) (s : Sweep) (h : i < j) :
    keepsAt (l.take j) s i = keepsAt l s i := by
  rw [keepsAt, keepsAt, List.getElem?_take_of_lt h, List.take_take,
    Nat.min_eq_left (Nat.le_of_lt h)]

theorem layer_eq_filter (l : Layer) (s : Sweep) :
    (layer l s).1 = (l.zipIdx.filter fun x => keepsAt l s x.2).map Prod.fst := by
  induction l using List.reverseRecOn with
  | nil => rfl
  | append_singleton l g ih =>
    have hbefore : ∀ x ∈ l.zipIdx, keepsAt (l ++ [g]) s x.2 = keepsAt l s x.2 := by
      intro x hx
      have hlt : x.2 < l.length :=
        (List.getElem?_eq_some_iff.1 (List.mem_zipIdx_iff_getElem?.1 hx)).1
      rw [← keepsAt_take (l ++ [g]) s hlt, List.take_left]
    have hlast : keepsAt (l ++ [g]) s l.length = g.ends.any (layer l s).2.live.contains := by
      simp [keepsAt]
    rw [layer_append_singleton, ih, List.zipIdx_append, List.filter_append, List.map_append,
      List.filter_congr hbefore, Nat.zero_add, List.zipIdx_singleton]
    by_cases hg : g.ends.any (layer l s).2.live.contains <;> simp only [hg] at hlast ⊢ <;> simp [hlast]

theorem mem_layer : g ∈ (layer l s).1 ↔ ∃ j, l[j]? = some g ∧ keepsAt l s j = true := by
  rw [layer_eq_filter, List.mem_map]
  constructor
  · rintro ⟨⟨g, j⟩, hx, rfl⟩
    have ⟨hmem, hkept⟩ := List.mem_filter.1 hx
    exact ⟨j, List.mem_zipIdx_iff_getElem?.1 hmem, hkept⟩
  · rintro ⟨j, hg, hkept⟩
    exact ⟨(g, j), List.mem_filter.2 ⟨List.mem_zipIdx_iff_getElem?.2 hg, hkept⟩, rfl⟩

theorem keepsAt_iff : keepsAt l s j = true ↔ ∃ g q, l[j]? = some g ∧ g.Touches q ∧
    (s.Live q ∨ ∃ i g', i < j ∧ keepsAt l s i = true ∧ l[i]? = some g' ∧ g'.Touches q) := by
  have hlive : ∀ q, (layer (l.take j) s).2.Live q ↔
      s.Live q ∨ ∃ i g', i < j ∧ keepsAt l s i = true ∧ l[i]? = some g' ∧ g'.Touches q := by
    intro q
    rw [live_layer]
    apply or_congr_right
    constructor
    · rintro ⟨g', hg', hq⟩
      obtain ⟨i, hi, hkept⟩ := mem_layer.1 hg'
      rw [List.getElem?_take] at hi
      split at hi
      · rename_i hij
        exact ⟨i, g', hij, keepsAt_take l s hij ▸ hkept, hi, hq⟩
      · cases hi
    · rintro ⟨i, g', hij, hkept, hi, hq⟩
      refine ⟨g', mem_layer.2 ⟨i, ?_, (keepsAt_take l s hij).trans hkept⟩, hq⟩
      rw [List.getElem?_take_of_lt hij, hi]
  rw [keepsAt, Option.any_eq_true]
  constructor
  · rintro ⟨g, hg, hkeeps⟩
    obtain ⟨q, hq, hq'⟩ := keeps_iff.1 hkeeps
    exact ⟨g, q, hg, hq, (hlive q).1 hq'⟩
  · rintro ⟨g, q, hg, hq, hq'⟩
    exact ⟨g, hg, keeps_iff.2 ⟨q, hq, (hlive q).2 hq'⟩⟩

theorem layers_drop (ls : List Layer) (s : Sweep) (n : Nat) :
    (layers (ls.drop n) s).1 = (layers ls s).1.drop n := by
  induction ls generalizing n with
  | nil => simp [layers]
  | cons l ls ih =>
    cases n with
    | zero => rfl
    | succ n => simp [layers, ih]

theorem layers_eq_mapIdx (ls : List Layer) (s : Sweep) :
    (layers ls s).1 = ls.mapIdx fun i l => (layer l (layers (ls.drop (i + 1)) s).2).1 := by
  induction ls with
  | nil => rfl
  | cons l ls ih => simp [layers, ih, List.mapIdx_cons]

end Sweep

namespace Circuit

variable {c : Circuit} {support : QubitSet} {p p' : Place} {g : Gate} {q : Qubit}

def sweepTo (c : Circuit) (support : QubitSet) (layer : Nat) : Sweep :=
  (Sweep.layers (c.layers.drop (layer + 1)) (.start c support)).2

def keeps (c : Circuit) (support : QubitSet) (p : Place) : Bool :=
  Sweep.keepsAt (c.layers[p.layer]?.getD []) (c.sweepTo support p.layer) p.position

theorem layers_pastCone (c : Circuit) (support : QubitSet) :
    (c.pastCone support).layers = c.layers.mapIdx fun i l =>
      (l.zipIdx.filter fun x => c.keeps support ⟨i, x.2⟩).map Prod.fst := by
  rw [pastCone, Sweep.layers_eq_mapIdx]
  apply List.ext_getElem
  · simp
  · intro i hi hi'
    simp only [List.length_mapIdx] at hi
    simp [Sweep.layer_eq_filter, keeps, sweepTo, hi]

theorem exists_mem_layer_pastCone_iff {i : Nat} :
    (∃ k, (c.pastCone support).layers[i]? = some k ∧ g ∈ k) ↔
      ∃ j, c.gateAt? ⟨i, j⟩ = some g ∧ c.keeps support ⟨i, j⟩ = true := by
  rw [layers_pastCone, List.getElem?_mapIdx]
  simp only [gateAt?]
  cases c.layers[i]? with
  | none => simp
  | some l => simp [List.mem_zipIdx_iff_getElem?]

theorem live_sweepTo {i : Nat} : (c.sweepTo support i).Live q ↔
    q ∈ support ∨ ∃ p g, i < p.layer ∧ c.keeps support p = true ∧ c.gateAt? p = some g ∧
      g.Touches q := by
  rw [Sweep.Live, sweepTo, Sweep.live_layers, Sweep.start, LiveSet.contains_ofSet,
    decide_eq_true_eq, ← Sweep.start, Sweep.layers_drop]
  apply or_congr_right
  constructor
  · rintro ⟨k, hk, g, hg, hq⟩
    obtain ⟨m, hm⟩ := List.mem_iff_getElem?.1 hk
    rw [List.getElem?_drop] at hm
    obtain ⟨j, hj, hkept⟩ := exists_mem_layer_pastCone_iff.1 ⟨k, hm, hg⟩
    exact ⟨⟨i + 1 + m, j⟩, g, Nat.lt_add_right m (Nat.lt_succ_self i), hkept, hj, hq⟩
  · rintro ⟨⟨m, j⟩, g, hlt, hkept, hg, hq⟩
    obtain ⟨k, hk, hgk⟩ := exists_mem_layer_pastCone_iff.2 ⟨j, hg, hkept⟩
    obtain ⟨n, rfl⟩ := Nat.exists_eq_add_of_le (Nat.succ_le_of_lt hlt)
    exact ⟨k, List.mem_iff_getElem?.2 ⟨n, List.getElem?_drop.trans hk⟩, g, hgk, hq⟩

theorem keeps_iff : c.keeps support p = true ↔ ∃ g q, c.gateAt? p = some g ∧ g.Touches q ∧
    (q ∈ support ∨
      ∃ p' g', p.After p' ∧ c.keeps support p' = true ∧ c.gateAt? p' = some g' ∧ g'.Touches q) := by
  rw [keeps, Sweep.keepsAt_iff]
  apply exists₂_congr
  intro g q
  rw [live_sweepTo]
  apply and_congr_right
  intro _
  apply and_congr_right
  intro _
  rw [or_assoc]
  apply or_congr_right
  constructor
  · rintro (⟨p', g', hlt, hkept, hg', hq⟩ | ⟨i, g', hlt, hkept, hg', hq⟩)
    · exact ⟨p', g', .inl hlt, hkept, hg', hq⟩
    · exact ⟨⟨p.layer, i⟩, g', .inr ⟨rfl, hlt⟩, hkept, hg', hq⟩
  · rintro ⟨⟨i, j⟩, g', hlt | ⟨heq, hlt⟩, hkept, hg', hq⟩
    · exact .inl ⟨_, g', hlt, hkept, hg', hq⟩
    · cases heq
      exact .inr ⟨j, g', hlt, hkept, hg', hq⟩

theorem layer_lt_depth (h : c.gateAt? p = some g) : p.layer < c.depth := by
  apply Nat.lt_of_not_le
  intro hle
  rw [gateAt?, List.getElem?_eq_none hle] at h
  cases h

theorem reaches_of_keeps {p : Place} (h : c.keeps support p = true) : Reaches c support p := by
  obtain ⟨g, q, hg, hq, hsupport | ⟨p', g', hafter, hkept, hg', hq'⟩⟩ := keeps_iff.1 h
  · exact .touch hg hq hsupport
  · exact .chain (reaches_of_keeps hkept) hg' hg hq' hq hafter
termination_by (c.depth - p.layer, p.position)
decreasing_by
  rcases hafter with hlt | ⟨heq, hlt⟩
  · have hp' := layer_lt_depth hg'
    exact .left _ _ (by omega)
  · rw [heq]
    exact .right _ hlt

theorem keeps_iff_reaches : c.keeps support p = true ↔ Reaches c support p := by
  constructor
  · exact reaches_of_keeps
  · intro h
    induction h with
    | touch hg hq hsupport => exact keeps_iff.2 ⟨_, _, hg, hq, .inl hsupport⟩
    | chain _ hg' hg hq' hq hafter ih =>
      exact keeps_iff.2 ⟨_, _, hg, hq, .inr ⟨_, _, hafter, ih, hg', hq'⟩⟩

/-- The gates share a qubit, and the sweep meets the second one later. -/
def Link (c : Circuit) (p' p : Place) : Prop :=
  p.After p' ∧ ∃ g' g q, c.gateAt? p' = some g' ∧ c.gateAt? p = some g ∧ g'.Touches q ∧ g.Touches q

structure Chained (c : Circuit) (support : QubitSet) (ps : List Place) : Prop where
  starts : ∃ p g q, ps.head? = some p ∧ c.gateAt? p = some g ∧ g.Touches q ∧ q ∈ support
  linked : ps.IsChain c.Link

theorem reaches_of_isChain {ps : List Place} (hlinked : (p :: ps).IsChain c.Link)
    (h : Reaches c support p) : ∀ p' ∈ p :: ps, Reaches c support p' := by
  induction ps generalizing p with
  | nil =>
    intro p' hp'
    exact List.mem_singleton.1 hp' ▸ h
  | cons r ps ih =>
    obtain ⟨⟨hafter, g', g, q, hg', hg, hq', hq⟩, hrest⟩ := List.isChain_cons_cons.1 hlinked
    intro p' hp'
    rcases List.mem_cons.1 hp' with rfl | hp'
    · exact h
    · exact ih hrest (.chain h hg' hg hq' hq hafter) p' hp'

theorem reaches_iff_exists_chained :
    Reaches c support p ↔ ∃ ps, c.Chained support ps ∧ ps.getLast? = some p := by
  constructor
  · intro h
    induction h with
    | @touch p g q hg hq hsupport =>
      exact ⟨[p], ⟨⟨p, g, q, rfl, hg, hq, hsupport⟩, .singleton p⟩, rfl⟩
    | @chain p p' g g' q _ hg' hg hq' hq hafter ih =>
      obtain ⟨ps, ⟨⟨p₀, g₀, q₀, hhead, hstart⟩, hlinked⟩, hlast⟩ := ih
      refine ⟨ps ++ [p], ⟨⟨p₀, g₀, q₀, ?_, hstart⟩, ?_⟩, by simp⟩
      · rw [List.head?_append, hhead]
        rfl
      · apply List.isChain_append.2
        refine ⟨hlinked, .singleton p, ?_⟩
        intro x hx y hy
        cases hlast.symm.trans hx
        cases hy
        exact ⟨hafter, g', g, q, hg', hg, hq', hq⟩
  · rintro ⟨ps, ⟨⟨p₀, g, q, hhead, hg, hq, hsupport⟩, hlinked⟩, hlast⟩
    cases ps with
    | nil => cases hhead
    | cons r ps =>
      cases hhead
      exact reaches_of_isChain hlinked (.touch hg hq hsupport) p (List.mem_of_getLast? hlast)

theorem Disjoint.layer_lt_of_link (hc : c.Disjoint) (h : c.Link p' p) : p.layer < p'.layer := by
  obtain ⟨hlt | ⟨heq, hlt⟩, g', g, q, hg', hg, hq', hq⟩ := h
  · exact hlt
  · rw [gateAt?, heq] at hg
    rw [gateAt?] at hg'
    cases hl : c.layers[p'.layer]? with
    | none =>
      rw [hl] at hg
      cases hg
    | some l =>
      rw [hl, Option.getD_some] at hg hg'
      obtain ⟨hi, rfl⟩ := List.getElem?_eq_some_iff.1 hg'
      obtain ⟨hj, rfl⟩ := List.getElem?_eq_some_iff.1 hg
      have hapart := (hc l (List.mem_of_getElem? hl)).pairwise_apart
      exact absurd hq (List.pairwise_iff_getElem.1 hapart _ _ hi hj hlt q hq')

theorem pastCone_keeps_chained (c : Circuit) (support : QubitSet) :
    (c.pastCone support).depth = c.depth ∧
      (∃ kept : Place → Bool,
        (∀ p, kept p = true ↔ ∃ ps, c.Chained support ps ∧ ps.getLast? = some p) ∧
        (c.pastCone support).layers = c.layers.mapIdx fun i l =>
          (l.zipIdx.filter fun x => kept ⟨i, x.2⟩).map Prod.fst) ∧
      (c.Disjoint → ∀ ps, c.Chained support ps → ps.IsChain fun p' p => p.layer < p'.layer) := by
  refine ⟨depth_pastCone c support, ⟨c.keeps support, ?_, layers_pastCone c support⟩, ?_⟩
  · intro p
    exact keeps_iff_reaches.trans reaches_iff_exists_chained
  · intro hc ps hps
    exact hps.linked.imp fun _ _ => hc.layer_lt_of_link

theorem pastCone_keeps_chained_ladder :
    Circuit.Disjoint ⟨[[.pair ⟨0⟩ ⟨1⟩], [.pair ⟨1⟩ ⟨2⟩]]⟩ ∧
      Circuit.Chained ⟨[[.pair ⟨0⟩ ⟨1⟩], [.pair ⟨1⟩ ⟨2⟩]]⟩ (.single ⟨2⟩) [⟨1, 0⟩, ⟨0, 0⟩] ∧
      List.IsChain (fun p' p : Place => p.layer < p'.layer) [⟨1, 0⟩, ⟨0, 0⟩] := by
  have hc : Circuit.Disjoint ⟨[[.pair ⟨0⟩ ⟨1⟩], [.pair ⟨1⟩ ⟨2⟩]]⟩ := by decide
  have hps : Circuit.Chained ⟨[[.pair ⟨0⟩ ⟨1⟩], [.pair ⟨1⟩ ⟨2⟩]]⟩ (.single ⟨2⟩)
      [⟨1, 0⟩, ⟨0, 0⟩] := by
    refine ⟨⟨⟨1, 0⟩, .pair ⟨1⟩ ⟨2⟩, ⟨2⟩, rfl, rfl, by decide, by decide⟩, ?_⟩
    refine List.isChain_cons_cons.2 ⟨⟨.inl (by decide), ?_⟩, .singleton _⟩
    exact ⟨.pair ⟨1⟩ ⟨2⟩, .pair ⟨0⟩ ⟨1⟩, ⟨1⟩, rfl, rfl, by decide, by decide⟩
  exact ⟨hc, hps, (pastCone_keeps_chained _ _).2.2 hc _ hps⟩

end Circuit

end QubitReuse
