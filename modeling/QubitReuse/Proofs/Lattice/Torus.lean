import Mathlib.Data.List.Perm.Basic
import Mathlib.Data.List.ProdSigma
import QubitReuse.Lattice.Torus
import QubitReuse.Proofs.Lattice.Ring

namespace QubitReuse

theorem perm_flatMap_swap {α β γ : Type} (xs : List α) (ys : List β) (f : α → β → γ) :
    (xs.flatMap fun x => ys.map fun y => f x y).Perm
      (ys.flatMap fun y => xs.map fun x => f x y) := by
  induction xs with
  | nil => simp
  | cons x xs ih =>
    simp only [List.flatMap_cons, List.map_cons]
    exact (ih.append_left _).trans (List.map_append_flatMap_perm ys (f x) _)

namespace Lattice

namespace Torus

open QubitReuse.Lattice.Ring (siteAt)

variable {n s : UInt32} {N S : Nat} {x y x' y' q : Qubit}

theorem toNat_le (hn : n ≤ maxScales) : n.toNat ≤ 15 := hn

theorem le_ring (hN : N ≤ 15) : N ≤ 31 := Nat.le_trans hN (by decide)

/-- The site in column `x` and row `y`. -/
def place (N : Nat) (x y : Qubit) : Qubit := ⟨(x.index + 2 ^ N * y.index).toUInt32⟩

def across (N : Nat) (z : Qubit) : Axis → Gate → Gate
  | .x => Gate.map fun a => place N a z
  | .y => Gate.map fun a => place N z a

def line (N S : Nat) : List Qubit := (List.range (2 ^ S)).map (siteAt N S)

def block (N : Nat) (xs ys : List Qubit) : List Qubit :=
  xs.flatMap fun x => ys.map fun y => place N x y

def grid (N S : Nat) : List Qubit := (line N S).flatMap fun x => (line N S).map fun y => place N x y

def spread (N S : Nat) (l : Layer) : Axis → Layer
  | .x => l.flatMap fun g => (line N S).map fun z => across N z .x g
  | .y => (line N S).flatMap fun z => l.map fun g => across N z .y g

def bondLayer (N S p : Nat) : Axis → Layer := spread N S (Ring.bondLayer N S p)

def kindAt (j : Nat) : Parity × Axis :=
  match j % 4 with
  | 0 => (.even, .x)
  | 1 => (.even, .y)
  | 2 => (.odd, .x)
  | _ => (.odd, .y)

def scaleLayers (N d K : Nat) : List Layer :=
  (List.range K).flatMap fun k => (List.range d).map fun j =>
    bondLayer N (k + 1) (kindAt j).1.offset.toNat (kindAt j).2

theorem add_mul_lt_four_pow {a b : Nat} (ha : a < 2 ^ N) (hb : b < 2 ^ N) :
    a + 2 ^ N * b < 4 ^ N := by
  calc
    a + 2 ^ N * b < 2 ^ N + 2 ^ N * b := Nat.add_lt_add_right ha _
    _ = 2 ^ N * (b + 1) := by rw [Nat.mul_succ, Nat.add_comm]
    _ ≤ 2 ^ N * 2 ^ N := Nat.mul_le_mul_left _ hb
    _ = 4 ^ N := (Nat.mul_pow 2 2 N).symm

theorem four_pow_lt (hN : N ≤ 15) : 4 ^ N < UInt32.size :=
  Nat.lt_of_le_of_lt (Nat.pow_le_pow_right (by decide) hN) (by decide)

theorem index_place (hN : N ≤ 15) (hx : x.index < 2 ^ N) (hy : y.index < 2 ^ N) :
    (place N x y).index = x.index + 2 ^ N * y.index :=
  Nat.mod_eq_of_lt (Nat.lt_trans (add_mul_lt_four_pow hx hy) (four_pow_lt hN))

theorem place_eq_iff (hN : N ≤ 15) (hx : x.index < 2 ^ N) (hy : y.index < 2 ^ N)
    (hx' : x'.index < 2 ^ N) (hy' : y'.index < 2 ^ N) :
    place N x y = place N x' y' ↔ x = x' ∧ y = y' := by
  constructor
  · intro h
    have hindex := congrArg Qubit.index h
    rw [index_place hN hx hy, index_place hN hx' hy'] at hindex
    have hmod := congrArg (· % 2 ^ N) hindex
    have hdiv := congrArg (· / 2 ^ N) hindex
    simp only [Nat.add_mul_mod_self_left, Nat.mod_eq_of_lt hx, Nat.mod_eq_of_lt hx'] at hmod
    simp only [Nat.add_mul_div_left _ _ (Nat.two_pow_pos N), Nat.div_eq_of_lt hx,
      Nat.div_eq_of_lt hx', Nat.zero_add] at hdiv
    exact ⟨Qubit.index_injective hmod, Qubit.index_injective hdiv⟩
  · rintro ⟨rfl, rfl⟩
    rfl

theorem siteAt_lt (hS : S ≤ N) (hN : N ≤ 15) (i : Nat) : (siteAt N S i).index < 2 ^ N :=
  Ring.index_siteAt_lt hS (le_ring hN) i

theorem mem_line : q ∈ line N S ↔ ∃ i < 2 ^ S, siteAt N S i = q := by
  simp only [line, List.mem_map, List.mem_range]

theorem lt_of_mem_line (hS : S ≤ N) (hN : N ≤ 15) (h : q ∈ line N S) : q.index < 2 ^ N := by
  obtain ⟨i, -, rfl⟩ := mem_line.1 h
  exact siteAt_lt hS hN i

theorem length_line (N S : Nat) : (line N S).length = 2 ^ S := by
  rw [line, List.length_map, List.length_range]

theorem nodup_line (hS : S ≤ N) (hN : N ≤ 15) : (line N S).Nodup := by
  apply List.Nodup.map_on _ List.nodup_range
  intro i hi j hj hij
  have hmod := (Ring.siteAt_eq_iff hS (le_ring hN)).1 hij
  exact hmod.eq_of_lt_of_lt (List.mem_range.1 hi) (List.mem_range.1 hj)

theorem mem_block {xs ys : List Qubit} :
    q ∈ block N xs ys ↔ ∃ x ∈ xs, ∃ y ∈ ys, place N x y = q := by
  simp only [block, List.mem_flatMap, List.mem_map]

theorem block_eq_map_product (N : Nat) (xs ys : List Qubit) :
    block N xs ys = (xs.product ys).map fun p => place N p.1 p.2 := by
  rw [block, List.product, List.map_flatMap]
  simp only [List.map_map]
  rfl

theorem length_block (N : Nat) (xs ys : List Qubit) :
    (block N xs ys).length = xs.length * ys.length := by
  rw [block_eq_map_product, List.length_map]
  exact List.length_product _ _

theorem nodup_block {xs ys : List Qubit} (hN : N ≤ 15) (hxs : ∀ x ∈ xs, x.index < 2 ^ N)
    (hys : ∀ y ∈ ys, y.index < 2 ^ N) (hx : xs.Nodup) (hy : ys.Nodup) :
    (block N xs ys).Nodup := by
  rw [block_eq_map_product]
  apply List.Nodup.map_on _ (hx.product hy)
  rintro ⟨x, y⟩ hp ⟨x', y'⟩ hp' heq
  obtain ⟨hx, hy⟩ := List.pair_mem_product.1 hp
  obtain ⟨hx', hy'⟩ := List.pair_mem_product.1 hp'
  obtain ⟨rfl, rfl⟩ := (place_eq_iff hN (hxs x hx) (hys y hy) (hxs x' hx') (hys y' hy')).1 heq
  rfl

theorem grid_eq_block (N S : Nat) : grid N S = block N (line N S) (line N S) := rfl

theorem mem_grid : q ∈ grid N S ↔ ∃ x ∈ line N S, ∃ y ∈ line N S, place N x y = q := mem_block

theorem length_grid (N S : Nat) : (grid N S).length = 4 ^ S := by
  rw [grid_eq_block, length_block, length_line, ← Nat.mul_pow]

theorem nodup_grid (hS : S ≤ N) (hN : N ≤ 15) : (grid N S).Nodup :=
  nodup_block hN (fun _ => lt_of_mem_line hS hN) (fun _ => lt_of_mem_line hS hN)
    (nodup_line hS hN) (nodup_line hS hN)

theorem lt_of_mem_grid (hS : S ≤ N) (hN : N ≤ 15) (h : q ∈ grid N S) : q.index < 4 ^ N := by
  obtain ⟨x, hx, y, hy, rfl⟩ := mem_grid.1 h
  have hx := lt_of_mem_line hS hN hx
  have hy := lt_of_mem_line hS hN hy
  rw [index_place hN hx hy]
  exact add_mul_lt_four_pow hx hy

theorem mem_grid_iff_lt (hN : N ≤ 15) : q ∈ grid N N ↔ q.index < 4 ^ N := by
  constructor
  · exact lt_of_mem_grid (Nat.le_refl N) hN
  · intro hq
    rw [show 4 ^ N = 2 ^ N * 2 ^ N from Nat.mul_pow 2 2 N] at hq
    have hindex : ∀ i < 2 ^ N, (siteAt N N i).index = i := fun i hi =>
      (Ring.index_siteAt_self (le_ring hN) i).trans (Nat.mod_eq_of_lt hi)
    have hmod : q.index % 2 ^ N < 2 ^ N := Nat.mod_lt _ (Nat.two_pow_pos N)
    have hdiv : q.index / 2 ^ N < 2 ^ N := Nat.div_lt_of_lt_mul hq
    refine mem_grid.2 ⟨_, mem_line.2 ⟨_, hmod, rfl⟩, _, mem_line.2 ⟨_, hdiv, rfl⟩,
      Qubit.index_injective ?_⟩
    rw [index_place hN (siteAt_lt (Nat.le_refl N) hN _) (siteAt_lt (Nat.le_refl N) hN _),
      hindex _ hmod, hindex _ hdiv]
    exact Nat.mod_add_div _ _

theorem toNat_side (hn : n ≤ maxScales) : ((1 : UInt32) <<< n).toNat = 2 ^ n.toNat :=
  toNat_one_shiftLeft (Nat.lt_of_le_of_lt (toNat_le hn) (by decide))

theorem toNat_number {i j : UInt32} (hn : n ≤ maxScales) (hi : i.toNat < 2 ^ n.toNat)
    (hj : j.toNat < 2 ^ n.toNat) : ((1 <<< n) * j).toNat = 2 ^ n.toNat * j.toNat ∧
      (i + (1 <<< n) * j).toNat = i.toNat + 2 ^ n.toNat * j.toNat := by
  have hlt := Nat.lt_trans (add_mul_lt_four_pow hi hj) (four_pow_lt (toNat_le hn))
  have hmul : ((1 <<< n) * j).toNat = 2 ^ n.toNat * j.toNat := by
    rw [UInt32.toNat_mul, toNat_side hn]
    exact Nat.mod_eq_of_lt (Nat.lt_of_le_of_lt (Nat.le_add_left _ _) hlt)
  refine ⟨hmul, ?_⟩
  rw [UInt32.toNat_add, hmul]
  exact Nat.mod_eq_of_lt hlt

theorem linearIndex_eq (hn : n ≤ maxScales) (hx : x.index < 2 ^ n.toNat)
    (hy : y.index < 2 ^ n.toNat) :
    linearIndex ⟨x.id, y.id⟩ n = .ok (place n.toNat x y) := by
  have hin : x.id < 1 <<< n ∧ y.id < 1 <<< n := by
    rw [UInt32.lt_iff_toNat_lt, UInt32.lt_iff_toNat_lt, toNat_side hn]
    exact ⟨hx, hy⟩
  rw [linearIndex, checkScales_eq_ok_iff.2 hn]
  change (if x.id < 1 <<< n ∧ y.id < 1 <<< n then Except.ok _ else _) = _
  rw [if_pos hin]
  apply congrArg Except.ok
  apply Qubit.index_injective
  rw [index_place (toNat_le hn) hx hy]
  exact (toNat_number hn hx hy).2

theorem coordinate_eq (hn : n ≤ maxScales) (hsn : s ≤ n) (i : UInt32) :
    i % (1 <<< s) * (1 <<< (n - s)) = (siteAt n.toNat s.toNat i.toNat).id := by
  have hlt : n.toNat < 32 := Nat.lt_of_le_of_lt (toNat_le hn) (by decide)
  have hsub := UInt32.toNat_sub_of_le n s hsn
  have hstride := toNat_one_shiftLeft (s := n - s)
    (hsub ▸ Nat.lt_of_le_of_lt (Nat.sub_le _ _) hlt)
  apply UInt32.toNat_inj.1
  rw [UInt32.toNat_mul, UInt32.toNat_mod, toNat_one_shiftLeft (Nat.lt_of_le_of_lt hsn hlt), hstride,
    hsub]
  rfl

theorem site_eq (hn : n ≤ maxScales) (hsn : s ≤ n) (i j : UInt32) :
    site n s i j =
      ⟨(siteAt n.toNat s.toNat i.toNat).id, (siteAt n.toNat s.toNat j.toNat).id⟩ := by
  rw [site, coordinate_eq hn hsn, coordinate_eq hn hsn]

theorem linearIndex_site (hn : n ≤ maxScales) (hsn : s ≤ n) (i j : UInt32) :
    linearIndex (site n s i j) n =
      .ok (place n.toNat (siteAt n.toNat s.toNat i.toNat) (siteAt n.toNat s.toNat j.toNat)) := by
  rw [site_eq hn hsn]
  exact linearIndex_eq hn (siteAt_lt hsn (toNat_le hn) _) (siteAt_lt hsn (toNat_le hn) _)

/-- The numbers of the places along an axis may be 32-bit words that turn over. -/
theorem siteAt_toNat_succ (hS : S ≤ 32) (i : UInt32) :
    siteAt N S (i + 1).toNat = siteAt N S (i.toNat + 1) := by
  rw [UInt32.toNat_add, UInt32.toNat_one, ← Ring.siteAt_mod, Nat.mod_mod_of_dvd,
    Ring.siteAt_mod]
  exact Nat.pow_dvd_pow 2 hS

theorem not_isLoop_across (hS : S + 1 ≤ N) (hN : N ≤ 15) (axis : Axis) (i j : Nat) :
    ¬ (across N (siteAt N (S + 1) j) axis (Ring.bond N (S + 1) i)).IsLoop := by
  have hlt := siteAt_lt hS hN
  have hne := Ring.siteAt_ne_succ hS (le_ring hN) i
  intro hloop
  cases axis with
  | x => exact hne ((place_eq_iff hN (hlt _) (hlt _) (hlt _) (hlt _)).1 hloop).1
  | y => exact hne ((place_eq_iff hN (hlt _) (hlt _) (hlt _) (hlt _)).1 hloop).2

theorem between_eq {a b : Qubit} (h : a ≠ b) :
    (Gate.between a b).mapError LatticeError.circuit = .ok (.pair a b) := by
  rw [Gate.between, if_neg h]
  rfl

theorem bond_eq (hn : n ≤ maxScales) (hs : s ≠ 0) (hsn : s ≤ n) (i j : UInt32) :
    bond n s .x i j = .ok (across n.toNat (siteAt n.toNat s.toNat j.toNat) .x
      (Ring.bond n.toNat s.toNat i.toNat)) ∧
    bond n s .y i j = .ok (across n.toNat (siteAt n.toNat s.toNat i.toNat) .y
      (Ring.bond n.toNat s.toNat j.toNat)) := by
  obtain ⟨k, hk⟩ := Nat.exists_eq_add_one_of_ne_zero (toNat_ne_zero hs)
  have hN := toNat_le hn
  have hle : s.toNat ≤ n.toNat := hsn
  have hsucc := siteAt_toNat_succ (N := n.toNat) (Nat.le_trans hle (Nat.le_trans hN (by decide)))
  constructor
  · rw [bond, linearIndex_site hn hsn]
    change (linearIndex (site n s (i + 1) j) n >>= fun b => (Gate.between _ b).mapError _) = _
    rw [linearIndex_site hn hsn, hsucc, hk]
    exact between_eq (not_isLoop_across (hk ▸ hle) hN .x i.toNat j.toNat)
  · rw [bond, linearIndex_site hn hsn]
    change (linearIndex (site n s i (j + 1)) n >>= fun b => (Gate.between _ b).mapError _) = _
    rw [linearIndex_site hn hsn, hsucc, hk]
    exact between_eq (not_isLoop_across (hk ▸ hle) hN .y j.toNat i.toNat)

theorem map_siteAt_below (hs : s.toNat < 32) :
    ((below (1 <<< s)).map fun i => siteAt N s.toNat i.toNat) = line N s.toNat := by
  rw [map_below, toNat_one_shiftLeft hs, line]

theorem sites_eq (hn : n ≤ maxScales) (hs : s ≠ 0) (hsn : s ≤ n) :
    sites n s = .ok ((line n.toNat s.toNat).flatMap fun x =>
      (line n.toNat s.toNat).map fun y => ⟨x.id, y.id⟩) := by
  have hlt : s.toNat < 32 := Nat.lt_of_le_of_lt hsn (Nat.lt_of_le_of_lt (toNat_le hn) (by decide))
  rw [sites, checkScale_eq_ok_iff.2 ⟨hn, hs, hsn⟩, ← map_siteAt_below hlt, List.flatMap_map]
  simp only [site_eq hn hsn, List.map_map]
  rfl

def starts (p : Parity) (s : UInt32) : List UInt32 :=
  (below (1 <<< (s - 1))).map (2 * · + p.offset)

theorem offset_le (p : Parity) : p.offset.toNat ≤ 1 := by
  cases p with
  | even => decide
  | odd => decide

theorem toNat_pred (hs : s ≠ 0) : (s - 1).toNat = s.toNat - 1 :=
  UInt32.toNat_sub_of_le s 1 (Nat.pos_of_ne_zero (toNat_ne_zero hs))

theorem toNat_half (hs : s ≠ 0) (hlt : s.toNat < 32) :
    ((1 : UInt32) <<< (s - 1)).toNat = 2 ^ (s.toNat - 1) := by
  rw [toNat_one_shiftLeft (toNat_pred hs ▸ Nat.lt_of_le_of_lt (Nat.sub_le _ _) hlt), toNat_pred hs]

theorem toNat_start {i : UInt32} (p : Parity) (hi : i.toNat < 2 ^ 31) :
    (2 * i).toNat = 2 * i.toNat ∧ (2 * i + p.offset).toNat = 2 * i.toNat + p.offset.toNat := by
  have hoffset := offset_le p
  have htwo : (2 * i).toNat = 2 * i.toNat := by
    rw [UInt32.toNat_mul]
    exact Nat.mod_eq_of_lt (Nat.mul_lt_mul_of_pos_left hi Nat.two_pos)
  refine ⟨htwo, ?_⟩
  rw [UInt32.toNat_add, htwo]
  omega

theorem map_bond_starts (p : Parity) (hs : s ≠ 0) (hlt : s.toNat < 32) :
    ((starts p s).map fun i => Ring.bond N s.toNat i.toNat) =
      Ring.bondLayer N s.toNat p.offset.toNat := by
  rw [starts, List.map_map, Ring.bondLayer, ← toNat_half hs hlt, ← map_below]
  apply List.map_congr_left
  intro i hi
  have hi : i.toNat < 2 ^ (s.toNat - 1) := toNat_half hs hlt ▸ lt_of_mem_below hi
  have hle : 2 ^ (s.toNat - 1) ≤ 2 ^ 31 := Nat.pow_le_pow_right Nat.two_pos (by omega)
  exact congrArg (Ring.bond N s.toNat) (toNat_start p (Nat.lt_of_lt_of_le hi hle)).2

theorem bonds_eq (p : Parity) (axis : Axis) (hn : n ≤ maxScales) (hs : s ≠ 0) (hsn : s ≤ n) :
    bonds p axis n s = .ok (bondLayer n.toNat s.toNat p.offset.toNat axis) := by
  have hle : s.toNat ≤ n.toNat := hsn
  have hlt : s.toNat < 32 := Nat.lt_of_le_of_lt hle (Nat.lt_of_le_of_lt (toNat_le hn) (by decide))
  have hbond := bond_eq hn hs hsn
  rw [bonds, checkScale_eq_ok_iff.2 ⟨hn, hs, hsn⟩]
  cases axis with
  | x =>
    change ((starts p s).flatMap fun i => (below (1 <<< s)).map fun j => (i, j)).mapM
      (fun ij => bond n s .x ij.1 ij.2) = _
    rw [mapM_pairs_eq_pure fun i _ j _ => (hbond i j).1, bondLayer, spread,
      ← map_bond_starts p hs hlt, ← map_siteAt_below hlt, List.flatMap_map]
    simp only [List.map_map]
    rfl
  | y =>
    change ((below (1 <<< s)).flatMap fun i => (starts p s).map fun j => (i, j)).mapM
      (fun ij => bond n s .y ij.1 ij.2) = _
    rw [mapM_pairs_eq_pure fun i _ j _ => (hbond i j).2, bondLayer, spread,
      ← map_bond_starts p hs hlt, ← map_siteAt_below hlt, List.flatMap_map]
    simp only [List.map_map]
    rfl

theorem cycle_bondLayers (N S d : Nat) :
    cycle [bondLayer N S 0 .x, bondLayer N S 0 .y, bondLayer N S 1 .x, bondLayer N S 1 .y] d =
      (List.range d).map fun j => bondLayer N S (kindAt j).1.offset.toNat (kindAt j).2 := by
  apply cycle_eq_map
  intro j
  have hcases : j % 4 = 0 ∨ j % 4 = 1 ∨ j % 4 = 2 ∨ j % 4 = 3 := by omega
  rcases hcases with h | h | h | h <;> simp [kindAt, h] <;> rfl

theorem dmera_eq (hn : n ≤ maxScales) (d : Nat) :
    dmera n d = .ok ⟨scaleLayers n.toNat d n.toNat⟩ := by
  have hscale : ∀ s ∈ scales n, (do
      let kinds := [← bonds .even .x n s, ← bonds .even .y n s, ← bonds .odd .x n s,
        ← bonds .odd .y n s]
      return cycle kinds d) = Except.ok ((List.range d).map fun j =>
        bondLayer n.toNat s.toNat (kindAt j).1.offset.toNat (kindAt j).2) := by
    intro s hs
    have ⟨hpos, hle⟩ := le_of_mem_scales hs
    rw [bonds_eq .even .x hn hpos hle, bonds_eq .even .y hn hpos hle, bonds_eq .odd .x hn hpos hle,
      bonds_eq .odd .y hn hpos hle]
    exact congrArg Except.ok (cycle_bondLayers _ _ d)
  have hlayers := congrArg (List.map fun s => (List.range d).map fun j =>
    bondLayer n.toNat s (kindAt j).1.offset.toNat (kindAt j).2) (map_toNat_scales n)
  rw [List.map_map, List.map_map] at hlayers
  rw [dmera, checkScales_eq_ok_iff.2 hn, mapM_eq_pure hscale, scaleLayers, List.flatMap_def]
  exact congrArg (fun layers => Except.ok (Circuit.mk layers.flatten)) hlayers

end Torus

end Lattice

end QubitReuse
