import QubitReuse.Proofs.Cone.Values
import QubitReuse.Proofs.Cone.Width
import QubitReuse.Proofs.Lattice.Ring

/-!
The past cone of two neighbours on a ring. At each scale the live sites lie in a window. A layer
adds one site at either end of it and the step to the next coarser scale halves it, so with `d`
layers a scale starts from `2 * d` sites and ends with `4 * d`.
-/

namespace QubitReuse.Lattice.Ring

variable {N S a v : Nat} {s : Sweep}

/-- The live sites of a scale are among the `w` sites from number `a` on. -/
def Window (s : Sweep) (N S a w : Nat) : Prop :=
  ∀ i, s.Live (siteAt N S i) → ∃ k < w, i ≡ a + k [MOD 2 ^ S]

theorem exists_bond_start {p M : Nat} (hp : p ≤ 1) (hM : 0 < M) (a : Nat) :
    ∃ b r, r ≤ 1 ∧ a + 2 * M = 2 * b + p + r :=
  ⟨(a + 2 * M - p) / 2, (a + 2 * M - p) % 2, by omega, by omega⟩

theorem exists_near_bond {a b e j k p r v M : Nat} (hr : r ≤ 1) (hb : a + 2 * M = 2 * b + p + r)
    (he : e ≤ 1) (hk : k < 2 * v) (h : 2 * j + p + e ≡ a + k [MOD 2 * M]) :
    ∃ t < v + 1, j ≡ b + t [MOD M] := by
  have hends : 2 * j + e ≡ 2 * b + (r + k) [MOD 2 * M] := by
    apply Nat.ModEq.add_right_cancel' p
    calc
      2 * j + e + p = 2 * j + p + e := Nat.add_right_comm ..
      _ ≡ a + k [MOD 2 * M] := h
      _ ≡ a + k + 2 * M [MOD 2 * M] := (Nat.add_modEq_right).symm
      _ = 2 * b + (r + k) + p := by omega
  have hparity : (2 * j + e) % 2 = (2 * b + (r + k)) % 2 := hends.of_dvd (Dvd.intro M rfl)
  have hhalf : r + k = 2 * ((r + k) / 2) + e := by omega
  refine ⟨(r + k) / 2, by omega, ?_⟩
  apply Nat.ModEq.mul_left_cancel' two_ne_zero
  apply Nat.ModEq.add_right_cancel' e
  rwa [Nat.mul_add, Nat.add_assoc, ← hhalf]

def KeptBonds (s : Sweep) (N S p b w : Nat) : Prop :=
  ∀ j, (bond N (S + 1) (2 * j + p)).ends.any s.live.contains = true →
    ∃ t < w, j ≡ b + t [MOD 2 ^ S]

theorem Window.keptBonds {b p r : Nat} (h : Window s N (S + 1) a (2 * v)) (hr : r ≤ 1)
    (hb : a + 2 * 2 ^ S = 2 * b + p + r) : KeptBonds s N S p b (v + 1) := by
  intro j hj
  obtain ⟨q, hq, hlive⟩ := Sweep.keeps_iff.1 hj
  obtain ⟨e, he, rfl⟩ := touches_bond.1 hq
  obtain ⟨k, hk, hmod⟩ := h _ hlive
  rw [Nat.pow_succ'] at hmod
  exact exists_near_bond hr hb he hk hmod

namespace KeptBonds

variable {p b w : Nat}

theorem length_layer_le (h : KeptBonds s N S p b w) (hS : S + 1 ≤ N) (hN : N ≤ 31) :
    (Sweep.layer (bondLayer N (S + 1) p) s).1.length ≤ w := by
  have hsub : (List.range (2 ^ S)).filter
      (fun j => (bond N (S + 1) (2 * j + p)).ends.any s.live.contains) ⊆
        (List.range w).map fun t => (b + t) % 2 ^ S := by
    intro j hj
    obtain ⟨hlt, hkept⟩ := List.mem_filter.1 hj
    obtain ⟨t, ht, hmod⟩ := h j hkept
    have hj : (b + t) % 2 ^ S = j := by
      rw [← hmod, Nat.mod_eq_of_lt (List.mem_range.1 hlt)]
    exact List.mem_map.2 ⟨t, List.mem_range.2 ht, hj⟩
  have hlen := (List.nodup_range.filter _).length_le_of_subset hsub
  rw [List.length_map, List.length_range] at hlen
  rw [Sweep.layer_eq_filter_of_apart (disjoint_bondLayer hS hN p).pairwise_apart, bondLayer,
    List.filter_map, List.length_map]
  exact hlen

theorem exists_of_touches (h : KeptBonds s N S p b w) (hS : S + 1 ≤ N) (hN : N ≤ 31) {g : Gate}
    {i : Nat} (hg : g ∈ (Sweep.layer (bondLayer N (S + 1) p) s).1)
    (hi : g.Touches (siteAt N (S + 1) i)) :
    ∃ k < 2 * w, i ≡ 2 * b + p + k [MOD 2 ^ (S + 1)] := by
  rw [Sweep.layer_eq_filter_of_apart (disjoint_bondLayer hS hN p).pairwise_apart] at hg
  obtain ⟨hg, hkept⟩ := List.mem_filter.1 hg
  obtain ⟨j, -, rfl⟩ := List.mem_map.1 hg
  obtain ⟨t, ht, hj⟩ := h j hkept
  obtain ⟨e, he, hsite⟩ := touches_bond.1 hi
  have hi := (siteAt_eq_iff hS hN).1 hsite
  have hj := (hj.mul_left' 2).add_right (p + e)
  rw [Nat.pow_succ'] at hi ⊢
  refine ⟨2 * t + e, by omega, ?_⟩
  calc
    i ≡ 2 * j + p + e [MOD 2 * 2 ^ S] := hi
    _ = 2 * j + (p + e) := Nat.add_assoc ..
    _ ≡ 2 * (b + t) + (p + e) [MOD 2 * 2 ^ S] := hj
    _ = 2 * b + p + (2 * t + e) := by omega

end KeptBonds

theorem Window.layer {p : Nat} (h : Window s N (S + 1) a (2 * v)) (hS : S + 1 ≤ N) (hN : N ≤ 31)
    (hp : p ≤ 1) :
    (Sweep.layer (bondLayer N (S + 1) p) s).1.length ≤ v + 1 ∧
      ∃ a', Window (Sweep.layer (bondLayer N (S + 1) p) s).2 N (S + 1) a' (2 * (v + 1)) := by
  obtain ⟨b, r, hr, hb⟩ := exists_bond_start hp (Nat.two_pow_pos S) a
  have hkept := h.keptBonds hr hb
  refine ⟨hkept.length_layer_le hS hN, 2 * b + p, fun i hi => ?_⟩
  rcases Sweep.live_layer.1 hi with hi | ⟨g, hg, hi⟩
  · -- What was live before is in the old window, which the new one covers.
    obtain ⟨k, hk, hmod⟩ := h i hi
    rw [Nat.pow_succ'] at hmod ⊢
    refine ⟨r + k, by omega, ?_⟩
    calc
      i ≡ a + k [MOD 2 * 2 ^ S] := hmod
      _ ≡ a + k + 2 * 2 ^ S [MOD 2 * 2 ^ S] := Nat.add_modEq_right.symm
      _ = 2 * b + p + (r + k) := by omega
  · exact hkept.exists_of_touches hS hN hg hi

theorem Window.layers {ps : List Nat} (h : Window s N (S + 1) a (2 * v)) (hS : S + 1 ≤ N)
    (hN : N ≤ 31) (hps : ∀ p ∈ ps, p ≤ 1) :
    (∀ l ∈ (Sweep.layers (ps.map (bondLayer N (S + 1))) s).1, l.length ≤ v + ps.length) ∧
      ∃ a', Window (Sweep.layers (ps.map (bondLayer N (S + 1))) s).2 N (S + 1) a'
        (2 * (v + ps.length)) := by
  induction ps with
  | nil => exact ⟨nofun, a, h⟩
  | cons p ps ih =>
    have ⟨hp, hps⟩ := List.forall_mem_cons.1 hps
    obtain ⟨hlater, a', hwindow⟩ := ih hps
    obtain ⟨hkept, hwindow⟩ := hwindow.layer hS hN hp
    refine ⟨List.forall_mem_cons.2 ⟨hkept, fun l hl => ?_⟩, hwindow⟩
    exact Nat.le_succ_of_le (hlater l hl)

theorem Window.coarser (h : Window s N (S + 1) a (2 * v)) (hS : S + 1 ≤ N) :
    ∃ a', Window s N S a' v := by
  refine ⟨(a + 1) / 2, fun i hi => ?_⟩
  rw [siteAt_coarser hS] at hi
  obtain ⟨k, hk, hmod⟩ := h _ hi
  rw [Nat.pow_succ'] at hmod
  have hparity : 2 * i % 2 = (a + k) % 2 := hmod.of_dvd (Dvd.intro _ rfl)
  have hhalf : a + k = 2 * ((a + 1) / 2 + ((a + k) / 2 - (a + 1) / 2)) := by omega
  refine ⟨(a + k) / 2 - (a + 1) / 2, by omega, ?_⟩
  apply Nat.ModEq.mul_left_cancel' two_ne_zero
  rwa [← hhalf]

def windowSites (N S a w : Nat) : List Qubit := (List.range w).map fun k => siteAt N S (a + k)

theorem Window.mem_windowSites {ps : List Nat} {w : Nat} {l : Layer} {q : Qubit}
    (h : Window (Sweep.layers (ps.map (bondLayer N (S + 1))) s).2 N (S + 1) a w)
    (hl : l ∈ (Sweep.layers (ps.map (bondLayer N (S + 1))) s).1) (hq : q ∈ l.ends) :
    q ∈ windowSites N (S + 1) a w := by
  obtain ⟨k, hk, hsub⟩ := Sweep.exists_sublist_of_mem_layers hl
  obtain ⟨p, -, rfl⟩ := List.mem_map.1 hk
  obtain ⟨g, hg, htouch⟩ := Layer.mem_ends.1 hq
  obtain ⟨i, rfl⟩ := mem_ends_bondLayer.1 (Layer.mem_ends.2 ⟨g, hsub.subset hg, htouch⟩)
  obtain ⟨k, hk, hmod⟩ := h i (Sweep.live_layers.2 (.inr ⟨l, hl, g, hg, htouch⟩))
  refine List.mem_map.2 ⟨k, List.mem_range.2 hk, ?_⟩
  rw [← siteAt_mod, ← hmod, siteAt_mod]

theorem Window.exists_reached {K d : Nat} (h : Window s N K a (2 * d)) (hK : K ≤ N) (hN : N ≤ 31) :
    ∃ qs : List Qubit, qs.length ≤ K * (4 * d) ∧
      ∀ l ∈ (Sweep.layers (scaleLayers N d K) s).1, l.length ≤ 2 * d ∧ ∀ q ∈ l.ends, q ∈ qs := by
  induction K generalizing s a with
  | zero => exact ⟨[], Nat.zero_le _, nofun⟩
  | succ K ih =>
    obtain ⟨hlen, a', hfine⟩ := h.layers hK hN fun p => le_of_mem_parities
    rw [length_parities, ← Nat.two_mul] at hlen hfine
    obtain ⟨a'', hcoarse⟩ := hfine.coarser hK
    obtain ⟨qs, hqs, hrest⟩ := ih hcoarse (Nat.le_of_succ_le hK)
    refine ⟨qs ++ windowSites N (K + 1) a' (2 * (2 * d)), ?_, fun l hl => ?_⟩
    · rw [List.length_append, windowSites, List.length_map, List.length_range]
      calc
        qs.length + 2 * (2 * d) ≤ K * (4 * d) + 2 * (2 * d) := Nat.add_le_add_right hqs _
        _ = K * (4 * d) + 4 * d := by rw [← Nat.mul_assoc 2 2 d]
        _ = (K + 1) * (4 * d) := (Nat.succ_mul K (4 * d)).symm
    · rw [scaleLayers_succ, Sweep.layers_append] at hl
      rcases List.mem_append.1 hl with hl | hl
      · obtain ⟨hle, hends⟩ := hrest l hl
        exact ⟨hle, fun q hq => List.mem_append_left _ (hends q hq)⟩
      · exact ⟨hlen l hl, fun q hq => List.mem_append_right _ (hfine.mem_windowSites hl hq)⟩

theorem window_start (c : Circuit) {w : Nat} (hw : 2 ≤ w) (hN : N ≤ 31) (i : Nat) :
    Window (.start c (.ofList [siteAt N N i, siteAt N N (i + 1)])) N N i w := by
  intro j hj
  rw [Sweep.Live, Sweep.start, LiveSet.contains_ofSet, decide_eq_true_eq, QubitSet.mem_ofList,
    List.mem_pair] at hj
  rcases hj with hj | hj
  · exact ⟨0, by omega, (siteAt_eq_iff (Nat.le_refl N) hN).1 hj⟩
  · exact ⟨1, hw, (siteAt_eq_iff (Nat.le_refl N) hN).1 hj⟩

theorem exists_reached_pastCone (hN : N ≤ 31) (d i : Nat) :
    ∃ qs : List Qubit, qs.length ≤ N * (4 * d) ∧
      ∀ l ∈ (Circuit.pastCone ⟨scaleLayers N d N⟩
        (.ofList [siteAt N N i, siteAt N N (i + 1)])).layers,
        l.length ≤ 2 * d ∧ ∀ q ∈ l.ends, q ∈ qs := by
  rcases Nat.eq_zero_or_pos d with rfl | hd
  · have hnil : scaleLayers N 0 N = [] := by simp [scaleLayers, parities]
    rw [hnil]
    exact ⟨[], Nat.zero_le _, fun _ hl => absurd hl List.not_mem_nil⟩
  · exact (window_start _ (Nat.mul_le_mul_left 2 hd) hN i).exists_reached (Nat.le_refl N) hN

theorem pastCone_dmera_narrow {n : UInt32} (hn : n ≤ maxScales) (d : Nat) (x : UInt32) :
    ∃ (c : Circuit) (support : QubitSet), dmera n d = .ok c ∧ neighborPair x n = .ok support ∧
      (∀ l ∈ (c.pastCone support).layers, l.length ≤ 2 * d) ∧
      (c.pastCone support).width ≤ 4 * d ∧
      c.ancestorWidth support ≤ n.toNat * (4 * d + 1) ∧
      c.qubits.size = if n = 0 ∨ d = 0 then 0 else 2 ^ n.toNat := by
  obtain ⟨qs, hqs, hcone⟩ := exists_reached_pastCone (toNat_le hn) d x.toNat
  refine ⟨_, _, dmera_eq hn d, neighborPair_eq hn x, fun l hl => (hcone l hl).1, ?_, ?_, ?_⟩
  · apply Circuit.width_le
    intro l hl
    calc
      l.width ≤ 2 * l.length := l.width_le
      _ ≤ 2 * (2 * d) := Nat.mul_le_mul_left 2 (hcone l hl).1
      _ = 4 * d := (Nat.mul_assoc 2 2 d).symm
  · calc
      _ ≤ qs.length := Circuit.ancestorWidth_le_length fun l hl => (hcone l hl).2
      _ ≤ n.toNat * (4 * d) := hqs
      _ ≤ n.toNat * (4 * d + 1) := Nat.mul_le_mul_left _ (Nat.le_succ _)
  · exact size_qubits_scaleLayers hn d

theorem pastCone_dmera_narrow_wrapped : (5 : UInt32) ≤ maxScales ∧
    ∃ (c : Circuit) (support : QubitSet), dmera 5 1 = .ok c ∧ neighborPair 31 5 = .ok support ∧
      (∀ l ∈ (c.pastCone support).layers, l.length ≤ 2) ∧ (c.pastCone support).width ≤ 4 ∧
      c.ancestorWidth support ≤ 25 ∧ c.qubits.size = 32 :=
  ⟨by decide, pastCone_dmera_narrow (by decide) 1 31⟩

end QubitReuse.Lattice.Ring
