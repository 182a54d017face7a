import Mathlib.Data.List.Rotate
import Mathlib.Data.Nat.ModEq
import QubitReuse.Lattice.Ring
import QubitReuse.Proofs.Circuit.Commuting
import QubitReuse.Proofs.Traversal

namespace QubitReuse

theorem rotateLeft_eq_rotate {α : Type} (xs : List α) (k : Nat) :
    xs.rotateLeft k = xs.rotate k := by
  rw [List.rotateLeft]
  split
  · rename_i h
    match xs, h with
    | [], _ => rw [List.rotate_nil]
    | [a], _ => rw [List.rotate_singleton]
  · rw [List.rotate_eq_drop_append_take_mod]

theorem rotate_map_range {α : Type} {f : Nat → α} {m : Nat} (h : ∀ i, f (i % m) = f i) (k : Nat) :
    ((List.range m).map f).rotate k = (List.range m).map fun i => f (i + k) := by
  apply List.ext_getElem
  · simp
  · intro i hi hi'
    rw [List.getElem_rotate]
    simp [h]

namespace Lattice

theorem toNat_one_shiftLeft {s : UInt32} (h : s.toNat < 32) :
    ((1 : UInt32) <<< s).toNat = 2 ^ s.toNat := by
  rw [UInt32.toNat_shiftLeft, Nat.mod_eq_of_lt h, UInt32.toNat_one, Nat.one_shiftLeft]
  exact Nat.mod_eq_of_lt (Nat.pow_lt_pow_right (by decide) h)

theorem toNat_ne_zero {s : UInt32} (h : s ≠ 0) : s.toNat ≠ 0 :=
  fun h0 => h (UInt32.toNat_inj.1 h0)

theorem ne_zero_iff_one_le {s : UInt32} : s ≠ 0 ↔ 1 ≤ s := by
  rw [UInt32.le_iff_toNat_le, ne_eq, ← UInt32.toNat_inj]
  exact Nat.pos_iff_ne_zero.symm

theorem checkScales_eq_ok_iff {n max : UInt32} : checkScales n max = .ok () ↔ n ≤ max := by
  rw [checkScales]
  split
  · rename_i h
    exact iff_of_false nofun (UInt32.not_le.2 h)
  · rename_i h
    exact iff_of_true rfl (UInt32.not_lt.1 h)

theorem checkScale_eq_ok_iff {n s max : UInt32} :
    checkScale n s max = .ok () ↔ n ≤ max ∧ s ≠ 0 ∧ s ≤ n := by
  rw [← checkScales_eq_ok_iff, checkScale]
  cases checkScales n max with
  | error e => exact iff_of_false nofun fun h => nomatch h.1
  | ok u =>
    change (if s = 0 ∨ n < s then .error _ else .ok ()) = Except.ok () ↔ _
    split
    · rename_i h
      exact iff_of_false nofun fun ⟨_, hs, hsn⟩ => h.elim hs (UInt32.not_lt.2 hsn)
    · rename_i h
      have ⟨hs, hsn⟩ := not_or.1 h
      exact iff_of_true rfl ⟨rfl, hs, UInt32.not_lt.1 hsn⟩

theorem map_toNat_below (n : UInt32) : (below n).map UInt32.toNat = List.range n.toNat := by
  rw [below, List.map_map]
  apply (List.map_congr_left fun k hk => ?_).trans (List.map_id _)
  exact Nat.mod_eq_of_lt (Nat.lt_trans (List.mem_range.1 hk) n.toNat_lt_size)

theorem map_below {α : Type} (n : UInt32) (f : Nat → α) :
    ((below n).map fun i => f i.toNat) = (List.range n.toNat).map f := by
  rw [← map_toNat_below, List.map_map]
  rfl

theorem lt_of_mem_below {n i : UInt32} (h : i ∈ below n) : i < n := by
  have hi := List.mem_map_of_mem (f := UInt32.toNat) h
  rw [map_toNat_below] at hi
  exact List.mem_range.1 hi

theorem map_toNat_scales (n : UInt32) :
    (scales n).map UInt32.toNat = (List.range n.toNat).map (· + 1) := by
  rw [scales, List.map_map, ← map_below]
  apply List.map_congr_left
  intro k hk
  have hk : k.toNat + 1 ≤ n.toNat := lt_of_mem_below hk
  rw [Function.comp_apply, UInt32.toNat_add, UInt32.toNat_one]
  exact Nat.mod_eq_of_lt (Nat.lt_of_le_of_lt hk n.toNat_lt_size)

theorem le_of_mem_scales {n s : UInt32} (h : s ∈ scales n) : s ≠ 0 ∧ s ≤ n := by
  have hs := List.mem_map_of_mem (f := UInt32.toNat) h
  rw [map_toNat_scales] at hs
  obtain ⟨k, hk, hks⟩ := List.mem_map.1 hs
  have hlt := List.mem_range.1 hk
  constructor
  · rintro rfl
    cases hks
  · rw [UInt32.le_iff_toNat_le, ← hks]
    exact hlt

theorem cycle_eq_map {layers : List Layer} {f : Nat → Layer}
    (h : ∀ j, layers[j % layers.length]? = some (f j)) (d : Nat) :
    cycle layers d = (List.range d).map f := by
  rw [cycle, ← List.filterMap_eq_map]
  exact List.filterMap_congr fun j _ => h j

namespace Ring

variable {n s : UInt32} {N S : Nat}

theorem toNat_le (hn : n ≤ maxScales) : n.toNat ≤ 31 := hn

/-- Sites of a scale, numbered on and on around the ring. -/
def siteAt (N S i : Nat) : Qubit := ⟨(i % 2 ^ S * 2 ^ (N - S)).toUInt32⟩

def bond (N S i : Nat) : Gate := .pair (siteAt N S i) (siteAt N S (i + 1))

def bondLayer (N S p : Nat) : Layer := (List.range (2 ^ (S - 1))).map fun j => bond N S (2 * j + p)

theorem siteAt_mod (N S i : Nat) : siteAt N S (i % 2 ^ S) = siteAt N S i := by
  rw [siteAt, Nat.mod_mod, siteAt]

theorem site_lt (hS : S ≤ N) (i : Nat) : i % 2 ^ S * 2 ^ (N - S) < 2 ^ N := by
  calc
    i % 2 ^ S * 2 ^ (N - S) < 2 ^ S * 2 ^ (N - S) :=
      Nat.mul_lt_mul_of_pos_right (Nat.mod_lt i (Nat.two_pow_pos S)) (Nat.two_pow_pos _)
    _ = 2 ^ N := by rw [← Nat.pow_add, Nat.add_sub_cancel' hS]

theorem index_siteAt (hS : S ≤ N) (hN : N ≤ 31) (i : Nat) :
    (siteAt N S i).index = i % 2 ^ S * 2 ^ (N - S) := by
  have hsize : 2 ^ N ≤ UInt32.size := Nat.pow_le_pow_right (by decide) (Nat.le_succ_of_le hN)
  exact Nat.mod_eq_of_lt (Nat.lt_of_lt_of_le (site_lt hS i) hsize)

theorem siteAt_eq_iff (hS : S ≤ N) (hN : N ≤ 31) {i j : Nat} :
    siteAt N S i = siteAt N S j ↔ i ≡ j [MOD 2 ^ S] := by
  constructor
  · intro h
    have hindex := congrArg Qubit.index h
    rw [index_siteAt hS hN, index_siteAt hS hN] at hindex
    exact Nat.eq_of_mul_eq_mul_right (Nat.two_pow_pos _) hindex
  · intro h
    rw [← siteAt_mod, h, siteAt_mod]

theorem index_siteAt_lt (hS : S ≤ N) (hN : N ≤ 31) (i : Nat) :
    (siteAt N S i).index < 2 ^ N := by
  rw [index_siteAt hS hN]
  exact site_lt hS i

theorem index_siteAt_self (hN : N ≤ 31) (i : Nat) : (siteAt N N i).index = i % 2 ^ N := by
  rw [index_siteAt (Nat.le_refl N) hN, Nat.sub_self, Nat.pow_zero, Nat.mul_one]

theorem mk_eq_siteAt {y : UInt32} {i : Nat} (hN : N ≤ 31) (hy : y.toNat = i % 2 ^ N) :
    (⟨y⟩ : Qubit) = siteAt N N i :=
  Qubit.index_injective (hy.trans (index_siteAt_self hN i).symm)

theorem siteAt_coarser (hS : S + 1 ≤ N) (i : Nat) : siteAt N S i = siteAt N (S + 1) (2 * i) := by
  have hstride : 2 ^ (N - S) = 2 * 2 ^ (N - (S + 1)) := by
    rw [← Nat.pow_succ']
    exact congrArg (2 ^ ·) (by omega)
  rw [siteAt, siteAt, Nat.pow_succ', Nat.mul_mod_mul_left, hstride, Nat.mul_left_comm,
    Nat.mul_assoc]

theorem siteAt_ne_succ (hS : S + 1 ≤ N) (hN : N ≤ 31) (i : Nat) :
    siteAt N (S + 1) i ≠ siteAt N (S + 1) (i + 1) := by
  intro h
  have hmod := (siteAt_eq_iff hS hN).1 h
  have htwo : i ≡ i + 1 [MOD 2] := hmod.of_dvd (Dvd.intro_left _ rfl)
  rw [Nat.ModEq] at htwo
  omega

theorem touches_bond {i : Nat} {q : Qubit} :
    (bond N S i).Touches q ↔ ∃ e ≤ 1, q = siteAt N S (i + e) := by
  rw [bond, Gate.Touches, Gate.ends, List.mem_pair]
  constructor
  · rintro (rfl | rfl)
    · exact ⟨0, Nat.zero_le 1, rfl⟩
    · exact ⟨1, Nat.le_refl 1, rfl⟩
  · rintro ⟨e, he, rfl⟩
    rcases Nat.le_one_iff_eq_zero_or_eq_one.1 he with rfl | rfl
    · exact .inl rfl
    · exact .inr rfl

theorem flatMap_range_two {α : Type} (f : Nat → α) (m : Nat) :
    ((List.range m).flatMap fun j => [f (2 * j), f (2 * j + 1)]) = (List.range (2 * m)).map f := by
  induction m with
  | zero => rfl
  | succ m ih => simp [List.range_succ, Nat.mul_succ, ih]

theorem perm_ends_bondLayer (N S p : Nat) : (Layer.ends (bondLayer N (S + 1) p)).Perm
    ((List.range (2 ^ (S + 1))).map (siteAt N (S + 1))) := by
  have hends : Layer.ends (bondLayer N (S + 1) p) =
      (List.range (2 ^ (S + 1))).map fun i => siteAt N (S + 1) (i + p) := by
    rw [Nat.pow_succ', ← flatMap_range_two, Layer.ends, bondLayer, List.flatMap_map]
    simp only [Nat.add_right_comm _ 1 p]
    rfl
  rw [hends, ← rotate_map_range (siteAt_mod _ _)]
  exact List.rotate_perm _ p

theorem mem_ends_bondLayer {p : Nat} {q : Qubit} :
    q ∈ Layer.ends (bondLayer N (S + 1) p) ↔ ∃ i, q = siteAt N (S + 1) i := by
  rw [(perm_ends_bondLayer N S p).mem_iff, List.mem_map]
  constructor
  · rintro ⟨i, -, rfl⟩
    exact ⟨i, rfl⟩
  · rintro ⟨i, rfl⟩
    exact ⟨i % 2 ^ (S + 1), List.mem_range.2 (Nat.mod_lt i (Nat.two_pow_pos _)), siteAt_mod _ _ i⟩

theorem disjoint_bondLayer (hS : S + 1 ≤ N) (hN : N ≤ 31) (p : Nat) :
    Layer.Disjoint (bondLayer N (S + 1) p) := by
  apply (perm_ends_bondLayer N S p).nodup_iff.2
  apply List.Nodup.map_on _ List.nodup_range
  intro i hi j hj hij
  exact ((siteAt_eq_iff hS hN).1 hij).eq_of_lt_of_lt (List.mem_range.1 hi) (List.mem_range.1 hj)

theorem sites_eq (hn : n ≤ maxScales) (hs : s ≠ 0) (hsn : s ≤ n) :
    sites n s = .ok ((List.range (2 ^ s.toNat)).map (siteAt n.toNat s.toNat)) := by
  have hlt : n.toNat < 32 := Nat.lt_succ_of_le (toNat_le hn)
  have hsub := UInt32.toNat_sub_of_le n s hsn
  have hcount := toNat_one_shiftLeft (Nat.lt_of_le_of_lt hsn hlt)
  have hstride := toNat_one_shiftLeft (s := n - s)
    (hsub ▸ Nat.lt_of_le_of_lt (Nat.sub_le _ _) hlt)
  rw [sites, checkScale_eq_ok_iff.2 ⟨hn, hs, hsn⟩, ← hcount, ← map_below]
  apply congrArg Except.ok
  apply List.map_congr_left
  intro i hi
  have hi : i.toNat < 2 ^ s.toNat := hcount ▸ lt_of_mem_below hi
  rw [siteAt, Nat.mod_eq_of_lt hi]
  apply congrArg Qubit.mk
  apply UInt32.toNat_inj.1
  rw [UInt32.toNat_mul, hstride, hsub]
  rfl

theorem pairUp_map_range (f : Nat → Qubit) (m : Nat) :
    pairUp ((List.range (2 * m)).map f) =
      (List.range m).map fun j => (f (2 * j), f (2 * j + 1)) := by
  induction m generalizing f with
  | zero => rfl
  | succ m ih =>
    have hrange : List.range (2 * (m + 1)) = 0 :: 1 :: (List.range (2 * m)).map (· + 2) := by
      rw [Nat.mul_succ, List.range_succ_eq_map, List.range_succ_eq_map]
      simp
    rw [hrange, List.map_cons, List.map_cons, List.map_map, pairUp, ih, List.range_succ_eq_map,
      List.map_cons, List.map_map]
    rfl

theorem bonds_eq (p : Parity) (hn : n ≤ maxScales) (hs : s ≠ 0) (hsn : s ≤ n) :
    bonds p n s = .ok (bondLayer n.toNat s.toNat p.offset.toNat) := by
  obtain ⟨k, hk⟩ := Nat.exists_eq_add_one_of_ne_zero (toNat_ne_zero hs)
  have hle : k + 1 ≤ n.toNat := hk ▸ hsn
  rw [bonds, sites_eq hn hs hsn, hk]
  change (pairUp (List.rotateLeft ((List.range _).map _) _)).mapM _ = _
  rw [rotateLeft_eq_rotate, rotate_map_range (siteAt_mod _ _), Nat.pow_succ', pairUp_map_range,
    List.mapM_map, bondLayer]
  apply mapM_eq_pure
  intro j _
  change (Gate.between _ (siteAt _ _ (2 * j + 1 + _))).mapError _ = _
  rw [Nat.add_right_comm, Gate.between, if_neg (siteAt_ne_succ hle (toNat_le hn) _)]
  rfl

def parities (d : Nat) : List Nat := (List.range d).map (· % 2)

@[simp] theorem length_parities (d : Nat) : (parities d).length = d := by simp [parities]

theorem le_of_mem_parities {d p : Nat} (h : p ∈ parities d) : p ≤ 1 := by
  obtain ⟨j, -, rfl⟩ := List.mem_map.1 h
  exact Nat.le_of_lt_succ (Nat.mod_lt j Nat.two_pos)

theorem cycle_bondLayers (N S d : Nat) :
    cycle [bondLayer N S 0, bondLayer N S 1] d = (parities d).map (bondLayer N S) := by
  rw [parities, List.map_map]
  apply cycle_eq_map
  intro j
  rcases Nat.mod_two_eq_zero_or_one j with h | h <;> simp [h]

def scaleLayers (N d K : Nat) : List Layer :=
  (List.range K).flatMap fun k => (parities d).map (bondLayer N (k + 1))

theorem scaleLayers_succ (N d K : Nat) :
    scaleLayers N d (K + 1) =
      scaleLayers N d K ++ (parities d).map (bondLayer N (K + 1)) := by
  rw [scaleLayers, List.range_succ, List.flatMap_append, List.flatMap_singleton, scaleLayers]

theorem dmera_eq (hn : n ≤ maxScales) (d : Nat) :
    dmera n d = .ok ⟨scaleLayers n.toNat d n.toNat⟩ := by
  have hscale : ∀ s ∈ scales n, (do return cycle [← bonds .even n s, ← bonds .odd n s] d) =
      Except.ok ((parities d).map (bondLayer n.toNat s.toNat)) := by
    intro s hs
    have ⟨hpos, hle⟩ := le_of_mem_scales hs
    rw [bonds_eq .even hn hpos hle, bonds_eq .odd hn hpos hle]
    exact congrArg Except.ok (cycle_bondLayers _ _ d)
  have hlayers := congrArg (List.map fun s => (parities d).map (bondLayer n.toNat s))
    (map_toNat_scales n)
  rw [List.map_map, List.map_map] at hlayers
  rw [dmera, checkScales_eq_ok_iff.2 hn, mapM_eq_pure hscale, scaleLayers, List.flatMap_def]
  exact congrArg (fun layers => Except.ok (Circuit.mk layers.flatten)) hlayers

theorem mem_scaleLayers {d K : Nat} {l : Layer} : l ∈ scaleLayers N d K ↔
    ∃ k < K, ∃ p ∈ parities d, bondLayer N (k + 1) p = l := by
  simp only [scaleLayers, List.mem_flatMap, List.mem_map, List.mem_range]

theorem mem_qubits_scaleLayers {d : Nat} {q : Qubit} (hN : N ≤ 31) :
    q ∈ Circuit.qubits ⟨scaleLayers N d N⟩ ↔ 0 < N ∧ 0 < d ∧ q.index < 2 ^ N := by
  rw [Circuit.mem_qubits_iff_exists_layer]
  constructor
  · rintro ⟨l, hl, hq⟩
    obtain ⟨k, hk, p, hp, rfl⟩ := mem_scaleLayers.1 hl
    obtain ⟨i, rfl⟩ := mem_ends_bondLayer.1 hq
    have hd := List.length_pos_of_mem hp
    rw [length_parities] at hd
    exact ⟨Nat.zero_lt_of_lt hk, hd, index_siteAt_lt hk hN i⟩
  · rintro ⟨hpos, hd, hq⟩
    obtain ⟨K, rfl⟩ := Nat.exists_eq_succ_of_ne_zero (Nat.ne_of_gt hpos)
    have heven : 0 ∈ parities d := List.mem_map.2 ⟨0, List.mem_range.2 hd, rfl⟩
    refine ⟨_, mem_scaleLayers.2 ⟨K, Nat.lt_succ_self K, 0, heven, rfl⟩, ?_⟩
    exact mem_ends_bondLayer.2 ⟨q.index, mk_eq_siteAt hN (Nat.mod_eq_of_lt hq).symm⟩

theorem size_qubits_scaleLayers {n : UInt32} (hn : n ≤ maxScales) (d : Nat) :
    (Circuit.qubits ⟨scaleLayers n.toNat d n.toNat⟩).size =
      if n = 0 ∨ d = 0 then 0 else 2 ^ n.toNat := by
  split
  · rename_i h
    apply QubitSet.size_eq_of_mem_iff (Nat.zero_le _)
    intro q
    rw [mem_qubits_scaleLayers (toNat_le hn)]
    rcases h with rfl | rfl <;> simp
  · rename_i h
    have ⟨hn0, hd0⟩ := not_or.1 h
    have hpos : 0 < n.toNat := Nat.pos_of_ne_zero (toNat_ne_zero hn0)
    apply QubitSet.size_eq_of_mem_iff
      (Nat.pow_le_pow_right Nat.two_pos (Nat.le_succ_of_le (toNat_le hn)))
    intro q
    rw [mem_qubits_scaleLayers (toNat_le hn)]
    exact ⟨fun hq => hq.2.2, fun hq => ⟨hpos, Nat.pos_of_ne_zero hd0, hq⟩⟩

theorem neighborPair_eq (hn : n ≤ maxScales) (x : UInt32) :
    neighborPair x n =
      .ok (.ofList [siteAt n.toNat n.toNat x.toNat, siteAt n.toNat n.toNat (x.toNat + 1)]) := by
  have hlength := toNat_one_shiftLeft (Nat.lt_succ_of_le (toNat_le hn))
  have hdvd : 2 ^ n.toNat ∣ 2 ^ 32 := Nat.pow_dvd_pow 2 (Nat.le_succ_of_le (toNat_le hn))
  rw [neighborPair, checkScales_eq_ok_iff.2 hn]
  change Except.ok (QubitSet.ofList [_, _]) = _
  rw [mk_eq_siteAt (i := x.toNat) (toNat_le hn), mk_eq_siteAt (i := x.toNat + 1) (toNat_le hn)]
  · rw [UInt32.toNat_mod, UInt32.toNat_add, UInt32.toNat_mod, hlength, UInt32.toNat_one,
      Nat.mod_mod_of_dvd _ hdvd, Nat.mod_add_mod]
  · rw [UInt32.toNat_mod, hlength]

end Ring

end Lattice

end QubitReuse
