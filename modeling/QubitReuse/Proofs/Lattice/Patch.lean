import QubitReuse.Proofs.Lattice.Torus

namespace QubitReuse

namespace Lattice

namespace Coord

def column (p : Coord) : Qubit := ⟨p.x⟩

def row (p : Coord) : Qubit := ⟨p.y⟩

end Coord

namespace Torus

open QubitReuse.Lattice.Ring (siteAt)

variable {n l : UInt32} {N o k : Nat} {p origin : Coord} {q : Qubit}

/-- How far it is from one number to another, upwards and around a ring. -/
def ahead (N o i : Nat) : Int := ((i : Int) - o) % (2 ^ N : Nat)

structure Flattening (n : UInt32) : Prop where
  ok_iff : ∀ p, (∃ q, linearIndex p n = .ok q) ↔
    p.x.toNat < 2 ^ n.toNat ∧ p.y.toNat < 2 ^ n.toNat
  index : ∀ p q, linearIndex p n = .ok q →
    q.index = p.x.toNat + 2 ^ n.toNat * p.y.toNat ∧ q.index < 4 ^ n.toNat
  arithmetic : ((1 : UInt32) <<< n).toNat = 2 ^ n.toNat ∧
    ∀ p q, linearIndex p n = .ok q → ((1 <<< n) * p.y).toNat = 2 ^ n.toNat * p.y.toNat ∧
      (p.x + (1 <<< n) * p.y).toNat = p.x.toNat + 2 ^ n.toNat * p.y.toNat
  injective : ∀ p p' q, linearIndex p n = .ok q → linearIndex p' n = .ok q → p = p'
  surjective : ∀ q : Qubit, q.index < 4 ^ n.toNat → ∃ p, linearIndex p n = .ok q

structure PatchShape (n : UInt32) (origin : Coord) (l : UInt32) (ps : QubitSet) : Prop where
  mem_iff : ∀ p q, linearIndex p n = .ok q → (q ∈ ps ↔
    ahead n.toNat origin.x.toNat p.x.toNat < l.toNat ∧
    ahead n.toNat origin.y.toNat p.y.toNat < l.toNat)
  onTorus : ∀ q ∈ ps, ∃ p, linearIndex p n = .ok q
  size : ps.size = min l.toNat (2 ^ n.toNat) ^ 2
  arithmetic : ∀ d, d < l → d < 1 <<< n →
    (origin.x + d).toNat = origin.x.toNat + d.toNat ∧
    (origin.y + d).toNat = origin.y.toNat + d.toNat

def stretch (N o k : Nat) : List Qubit := (List.range k).map fun d => siteAt N N (o + d)

theorem length_stretch (N o k : Nat) : (stretch N o k).length = k := by
  rw [stretch, List.length_map, List.length_range]

theorem lt_of_mem_stretch (hN : N ≤ 15) (h : q ∈ stretch N o k) : q.index < 2 ^ N := by
  obtain ⟨d, -, rfl⟩ := List.mem_map.1 h
  exact siteAt_lt (Nat.le_refl N) hN _

theorem nodup_stretch (hN : N ≤ 15) (hk : k ≤ 2 ^ N) (o : Nat) : (stretch N o k).Nodup := by
  apply List.Nodup.map_on _ List.nodup_range
  intro i hi j hj hij
  have hmod := (Ring.siteAt_eq_iff (Nat.le_refl N) (le_ring hN)).1 hij
  exact (Nat.ModEq.add_left_cancel' o hmod).eq_of_lt_of_lt
    (Nat.lt_of_lt_of_le (List.mem_range.1 hi) hk) (Nat.lt_of_lt_of_le (List.mem_range.1 hj) hk)

theorem siteAt_mem_stretch {e : Nat} (he : e < k) :
    siteAt N N (o + e) ∈ stretch N o (min k (2 ^ N)) := by
  -- A site further on than the ring is long is met on the first round.
  refine List.mem_map.2 ⟨e % 2 ^ N, List.mem_range.2 (Nat.lt_min.2 ⟨?_, ?_⟩), ?_⟩
  · exact Nat.lt_of_le_of_lt (Nat.mod_le e _) he
  · exact Nat.mod_lt e (Nat.two_pow_pos N)
  · rw [← Ring.siteAt_mod, Nat.add_mod_mod, Ring.siteAt_mod]

theorem ahead_eq_iff {i d : Nat} (hd : d < 2 ^ N) :
    ahead N o i = d ↔ o + d ≡ i [MOD 2 ^ N] := by
  have hself : (d : Int) % (2 ^ N : Nat) = d := Int.emod_eq_of_lt (by omega) (by omega)
  have hsub : (i : Int) - o - d = i - (o + d : Nat) := by omega
  calc
    ahead N o i = d ↔ ((i : Int) - o) % (2 ^ N : Nat) = d % (2 ^ N : Nat) := by rw [hself, ahead]
    _ ↔ (i : Int) % (2 ^ N : Nat) = (o + d : Nat) % (2 ^ N : Nat) := by
      rw [Int.emod_eq_emod_iff_emod_sub_eq_zero, hsub, ← Int.emod_eq_emod_iff_emod_sub_eq_zero]
    _ ↔ o + d ≡ i [MOD 2 ^ N] := by
      rw [← Int.natCast_emod, ← Int.natCast_emod, Int.natCast_inj, eq_comm, Nat.ModEq]

theorem siteAt_mem_stretch_iff (hN : N ≤ 15) {i : Nat} :
    siteAt N N i ∈ stretch N o (min k (2 ^ N)) ↔ ahead N o i < k := by
  have heq : ∀ {j}, siteAt N N j = siteAt N N i ↔ j ≡ i [MOD 2 ^ N] :=
    Ring.siteAt_eq_iff (Nat.le_refl N) (le_ring hN)
  constructor
  · intro h
    obtain ⟨d, hd, hsite⟩ := List.mem_map.1 h
    obtain ⟨hdk, hdN⟩ := Nat.lt_min.1 (List.mem_range.1 hd)
    rw [(ahead_eq_iff hdN).2 (heq.1 hsite)]
    exact Int.ofNat_lt.2 hdk
  · intro h
    have hpos : (0 : Int) < (2 ^ N : Nat) := Int.natCast_pos.2 (Nat.two_pow_pos N)
    have hlt : ahead N o i < (2 ^ N : Nat) := Int.emod_lt_of_pos _ hpos
    obtain ⟨d, hd⟩ := Int.eq_ofNat_of_zero_le (Int.emod_nonneg (i - o : Int) (Int.ne_of_gt hpos))
    change ahead N o i = d at hd
    rw [hd] at h hlt
    rw [← heq.2 ((ahead_eq_iff (Int.ofNat_lt.1 hlt)).1 hd)]
    exact siteAt_mem_stretch (Int.ofNat_lt.1 h)

theorem eq_siteAt (hN : N ≤ 15) (hq : q.index < 2 ^ N) : q = siteAt N N q.index :=
  Ring.mk_eq_siteAt (le_ring hN) (Nat.mod_eq_of_lt hq).symm

theorem mem_stretch_iff (hN : N ≤ 15) (hq : q.index < 2 ^ N) :
    q ∈ stretch N o (min k (2 ^ N)) ↔ ahead N o q.index < k := by
  rw [← siteAt_mem_stretch_iff hN, ← eq_siteAt hN hq]

theorem linearIndex_eq_ok (hn : n ≤ maxScales) (hx : p.column.index < 2 ^ n.toNat)
    (hy : p.row.index < 2 ^ n.toNat) : linearIndex p n = .ok (place n.toNat p.column p.row) :=
  linearIndex_eq hn hx hy

theorem linearIndex_eq_ok_iff (hn : n ≤ maxScales) : linearIndex p n = .ok q ↔
    (p.column.index < 2 ^ n.toNat ∧ p.row.index < 2 ^ n.toNat) ∧
      q = place n.toNat p.column p.row := by
  constructor
  · intro h
    by_cases hp : p.column.index < 2 ^ n.toNat ∧ p.row.index < 2 ^ n.toNat
    · rw [linearIndex_eq_ok hn hp.1 hp.2] at h
      exact ⟨hp, (Except.ok.inj h).symm⟩
    · have hout : ¬ (p.x < 1 <<< n ∧ p.y < 1 <<< n) := by
        rw [UInt32.lt_iff_toNat_lt, UInt32.lt_iff_toNat_lt, toNat_side hn]
        exact hp
      rw [linearIndex, checkScales_eq_ok_iff.2 hn] at h
      change (if p.x < 1 <<< n ∧ p.y < 1 <<< n then Except.ok _ else .error _) = _ at h
      rw [if_neg hout] at h
      cases h
  · rintro ⟨⟨hx, hy⟩, rfl⟩
    exact linearIndex_eq_ok hn hx hy

theorem flattening (hn : n ≤ maxScales) : Flattening n := by
  have hN := toNat_le hn
  constructor
  case ok_iff =>
    intro p
    constructor
    · rintro ⟨q, h⟩
      exact ((linearIndex_eq_ok_iff hn).1 h).1
    · rintro ⟨hx, hy⟩
      exact ⟨_, linearIndex_eq_ok hn hx hy⟩
  case index =>
    intro p q h
    obtain ⟨⟨hx, hy⟩, rfl⟩ := (linearIndex_eq_ok_iff hn).1 h
    rw [index_place hN hx hy]
    exact ⟨rfl, add_mul_lt_four_pow hx hy⟩
  case arithmetic =>
    refine ⟨toNat_side hn, fun p q h => ?_⟩
    obtain ⟨⟨hx, hy⟩, -⟩ := (linearIndex_eq_ok_iff hn).1 h
    exact toNat_number hn hx hy
  case injective =>
    intro p p' q h h'
    obtain ⟨⟨hx, hy⟩, rfl⟩ := (linearIndex_eq_ok_iff hn).1 h
    obtain ⟨⟨hx', hy'⟩, heq⟩ := (linearIndex_eq_ok_iff hn).1 h'
    obtain ⟨hcolumn, hrow⟩ := (place_eq_iff hN hx hy hx' hy').1 heq
    obtain ⟨x, y⟩ := p
    obtain ⟨x', y'⟩ := p'
    cases hcolumn
    cases hrow
    rfl
  case surjective =>
    intro q hq
    obtain ⟨x, hx, y, hy, rfl⟩ := mem_grid.1 ((mem_grid_iff_lt hN).2 hq)
    exact ⟨⟨x.id, y.id⟩, linearIndex_eq hn (lt_of_mem_line (Nat.le_refl _) hN hx)
      (lt_of_mem_line (Nat.le_refl _) hN hy)⟩

theorem wrapped_eq (hn : n ≤ maxScales) (o d : UInt32) :
    (o + d) % (1 <<< n) = (siteAt n.toNat n.toNat (o.toNat + d.toNat)).id := by
  have hN31 := le_ring (toNat_le hn)
  have hdvd : 2 ^ n.toNat ∣ 2 ^ 32 := Nat.pow_dvd_pow 2 (Nat.le_succ_of_le hN31)
  apply congrArg Qubit.id (Ring.mk_eq_siteAt hN31 _)
  rw [UInt32.toNat_mod, UInt32.toNat_add, toNat_side hn, Nat.mod_mod_of_dvd _ hdvd]

theorem map_siteAt_extent (hn : n ≤ maxScales) (l : UInt32) (o : Nat) :
    ((below (min l (1 <<< n))).map fun d => siteAt n.toNat n.toNat (o + d.toNat)) =
      stretch n.toNat o (min l.toNat (2 ^ n.toNat)) := by
  have hmin : (min l (1 <<< n)).toNat = min l.toNat (2 ^ n.toNat) := by
    rw [← toNat_side hn]
    change (if l ≤ 1 <<< n then l else 1 <<< n).toNat = _
    split
    · rename_i h
      exact (Nat.min_eq_left h).symm
    · rename_i h
      exact (Nat.min_eq_right (Nat.le_of_not_le h)).symm
  rw [map_below _ fun d => siteAt n.toNat n.toNat (o + d), hmin, stretch]

theorem patch_eq (hn : n ≤ maxScales) (hx : origin.column.index < 2 ^ n.toNat)
    (hy : origin.row.index < 2 ^ n.toNat) (l : UInt32) : patch origin l n =
      .ok (.ofList (block n.toNat (stretch n.toNat origin.x.toNat (min l.toNat (2 ^ n.toNat)))
        (stretch n.toNat origin.y.toNat (min l.toNat (2 ^ n.toNat))))) := by
  have hlt := siteAt_lt (Nat.le_refl n.toNat) (toNat_le hn)
  have hsite : ∀ dx dy, linearIndex ⟨(origin.x + dx) % (1 <<< n), (origin.y + dy) % (1 <<< n)⟩ n =
      pure (place n.toNat (siteAt n.toNat n.toNat (origin.x.toNat + dx.toNat))
        (siteAt n.toNat n.toNat (origin.y.toNat + dy.toNat))) := by
    intro dx dy
    rw [wrapped_eq hn, wrapped_eq hn]
    exact linearIndex_eq hn (hlt _) (hlt _)
  rw [patch, linearIndex_eq_ok hn hx hy]
  change (List.mapM (linearIndex · n) _ >>= fun sites => Except.ok (QubitSet.ofList sites)) = _
  rw [mapM_pairs_eq_pure (f := (linearIndex · n))
    (c := fun dx dy => ⟨(origin.x + dx) % (1 <<< n), (origin.y + dy) % (1 <<< n)⟩)
    fun dx _ dy _ => hsite dx dy,
    ← map_siteAt_extent hn, ← map_siteAt_extent hn, block, List.flatMap_map]
  simp only [List.map_map]
  rfl

theorem place_mem_block {xs ys : List Qubit} {x y : Qubit} (hN : N ≤ 15)
    (hxs : ∀ x ∈ xs, x.index < 2 ^ N) (hys : ∀ y ∈ ys, y.index < 2 ^ N) (hx : x.index < 2 ^ N)
    (hy : y.index < 2 ^ N) : place N x y ∈ block N xs ys ↔ x ∈ xs ∧ y ∈ ys := by
  rw [mem_block]
  constructor
  · rintro ⟨x', hx', y', hy', heq⟩
    obtain ⟨rfl, rfl⟩ := (place_eq_iff hN (hxs x' hx') (hys y' hy') hx hy).1 heq
    exact ⟨hx', hy'⟩
  · rintro ⟨hx, hy⟩
    exact ⟨x, hx, y, hy, rfl⟩

theorem patchShape (hn : n ≤ maxScales) (hx : origin.column.index < 2 ^ n.toNat)
    (hy : origin.row.index < 2 ^ n.toNat) (l : UInt32) :
    ∃ ps, patch origin l n = .ok ps ∧ PatchShape n origin l ps := by
  have hN := toNat_le hn
  have hlt : ∀ o k, ∀ x ∈ stretch n.toNat o k, x.index < 2 ^ n.toNat :=
    fun _ _ _ => lt_of_mem_stretch hN
  have hk := Nat.min_le_right l.toNat (2 ^ n.toNat)
  have hnodup := nodup_block hN (hlt _ _) (hlt _ _) (nodup_stretch hN hk origin.x.toNat)
    (nodup_stretch hN hk origin.y.toNat)
  refine ⟨_, patch_eq hn hx hy l, ?_⟩
  constructor
  case mem_iff =>
    intro p q hq
    obtain ⟨⟨hpx, hpy⟩, rfl⟩ := (linearIndex_eq_ok_iff hn).1 hq
    rw [QubitSet.mem_ofList, place_mem_block hN (hlt _ _) (hlt _ _) hpx hpy,
      mem_stretch_iff hN hpx, mem_stretch_iff hN hpy]
    rfl
  case onTorus =>
    intro q hq
    obtain ⟨x, hx, y, hy, rfl⟩ := mem_block.1 (QubitSet.mem_ofList.1 hq)
    exact ⟨⟨x.id, y.id⟩, linearIndex_eq hn (hlt _ _ x hx) (hlt _ _ y hy)⟩
  case size =>
    rw [QubitSet.size_ofList hnodup, length_block, length_stretch, length_stretch, Nat.pow_two]
  case arithmetic =>
    have hside : 2 ^ n.toNat ≤ 2 ^ 15 := Nat.pow_le_pow_right Nat.two_pos hN
    have hadd : ∀ {o d : UInt32}, o.toNat < 2 ^ n.toNat → d < 1 <<< n →
        (o + d).toNat = o.toNat + d.toNat := by
      intro o d ho hd
      rw [UInt32.lt_iff_toNat_lt, toNat_side hn] at hd
      rw [UInt32.toNat_add]
      exact Nat.mod_eq_of_lt (by omega)
    exact fun d _ hd => ⟨hadd hx hd, hadd hy hd⟩

def pairExtent (axis along : Axis) : Nat := if axis = along then 2 else 1

theorem neighborPair_eq (hn : n ≤ maxScales) (hx : origin.column.index < 2 ^ n.toNat)
    (hy : origin.row.index < 2 ^ n.toNat) (axis : Axis) : neighborPair origin axis n =
      .ok (.ofList (block n.toNat (stretch n.toNat origin.x.toNat (pairExtent axis .x))
        (stretch n.toNat origin.y.toNat (pairExtent axis .y)))) := by
  have hN := toNat_le hn
  have hlt := siteAt_lt (Nat.le_refl n.toNat) hN
  have hcolumn : origin.column = siteAt n.toNat n.toNat (origin.x.toNat + 0) := eq_siteAt hN hx
  have hrow : origin.row = siteAt n.toNat n.toNat (origin.y.toNat + 0) := eq_siteAt hN hy
  rw [neighborPair, linearIndex_eq_ok hn hx hy]
  cases axis with
  | x =>
    change (linearIndex ⟨(origin.x + (1 : UInt32)) % (1 <<< n), origin.row.id⟩ n >>= _) = _
    rw [wrapped_eq hn, linearIndex_eq hn (hlt _) hy, hcolumn, hrow]
    rfl
  | y =>
    change (linearIndex ⟨origin.column.id, (origin.y + (1 : UInt32)) % (1 <<< n)⟩ n >>= _) = _
    rw [wrapped_eq hn, linearIndex_eq hn hx (hlt _), hcolumn, hrow]
    rfl

theorem stretch_subset {j : Nat} (h : j ≤ k) :
    stretch N o j ⊆ stretch N o (min k (2 ^ N)) := by
  intro q hq
  obtain ⟨d, hd, rfl⟩ := List.mem_map.1 hq
  exact siteAt_mem_stretch (Nat.lt_of_lt_of_le (List.mem_range.1 hd) h)

theorem block_subset {xs ys xs' ys' : List Qubit} (hx : xs ⊆ xs') (hy : ys ⊆ ys') :
    block N xs ys ⊆ block N xs' ys' := by
  intro q hq
  obtain ⟨x, hxs, y, hys, rfl⟩ := mem_block.1 hq
  exact mem_block.2 ⟨x, hx hxs, y, hy hys, rfl⟩

theorem pairExtent_le (axis along : Axis) : pairExtent axis along ≤ 2 := by
  rw [pairExtent]
  split <;> decide

theorem neighborPair_subset_patch (hn : n ≤ maxScales) (hx : origin.column.index < 2 ^ n.toNat)
    (hy : origin.row.index < 2 ^ n.toNat) (axis : Axis) : ∃ pair ps,
      neighborPair origin axis n = .ok pair ∧ patch origin 2 n = .ok ps ∧ pair ⊆ ps := by
  refine ⟨_, _, neighborPair_eq hn hx hy axis, patch_eq hn hx hy 2, fun q hq => ?_⟩
  rw [← QubitSet.mem_def, QubitSet.mem_ofList] at hq
  exact QubitSet.mem_ofList.2 (block_subset (stretch_subset (pairExtent_le axis .x))
    (stretch_subset (pairExtent_le axis .y)) hq)

theorem patch_wraps_around (hn : n ≤ 15) :
    Flattening n ∧
    (∀ origin l, (∃ q, linearIndex origin n = .ok q) →
      ∃ ps, patch origin l n = .ok ps ∧ PatchShape n origin l ps) ∧
    (∀ origin l e, patch origin l n = .error e ↔ linearIndex origin n = .error e) ∧
    ∀ origin axis, (∃ q, linearIndex origin n = .ok q) → ∃ pair ps,
      neighborPair origin axis n = .ok pair ∧ patch origin 2 n = .ok ps ∧ pair ⊆ ps := by
  have hflat := flattening (n := n) hn
  refine ⟨hflat, ?_, ?_, ?_⟩
  · intro origin l hin
    obtain ⟨hx, hy⟩ := (hflat.ok_iff origin).1 hin
    exact patchShape hn hx hy l
  · intro origin l e
    constructor
    · intro h
      cases hindex : linearIndex origin n with
      | error e' =>
        rw [patch, hindex] at h
        exact congrArg Except.error (Except.error.inj h)
      | ok q =>
        obtain ⟨hx, hy⟩ := (hflat.ok_iff origin).1 ⟨q, hindex⟩
        rw [patch_eq hn hx hy] at h
        cases h
    · intro h
      rw [patch, h]
      rfl
  · intro origin axis hin
    obtain ⟨hx, hy⟩ := (hflat.ok_iff origin).1 hin
    exact neighborPair_subset_patch hn hx hy axis

/-- From the last corner of four by four sites a patch of two by two holds all four corners, and the
widest patch holds every site. -/
theorem patch_wraps_around_corner :
    (∃ ps, patch ⟨3, 3⟩ 2 2 = .ok ps ∧ PatchShape 2 ⟨3, 3⟩ 2 ps ∧ ⟨0⟩ ∈ ps ∧ ps.size = 4) ∧
    (∃ ps, patch ⟨3, 3⟩ 4294967295 2 = .ok ps ∧ ps.size = 16) ∧
    patch ⟨4, 0⟩ 1 2 = .error (.coordOutOfRange 4 0 4) ∧
    ∃ pair ps, neighborPair ⟨3, 3⟩ .y 2 = .ok pair ∧ patch ⟨3, 3⟩ 2 2 = .ok ps ∧ pair ⊆ ps := by
  obtain ⟨-, hpatch, herror, hpair⟩ := patch_wraps_around (n := 2) (by decide)
  have hcorner : linearIndex ⟨3, 3⟩ 2 = .ok ⟨15⟩ := rfl
  refine ⟨?_, ?_, (herror _ _ _).2 rfl, hpair _ _ ⟨_, hcorner⟩⟩
  · obtain ⟨ps, hps, hshape⟩ := hpatch ⟨3, 3⟩ 2 ⟨_, hcorner⟩
    refine ⟨ps, hps, hshape, ?_, hshape.size⟩
    exact (hshape.mem_iff ⟨0, 0⟩ ⟨0⟩ rfl).2 (by decide)
  · obtain ⟨ps, hps, hshape⟩ := hpatch ⟨3, 3⟩ 4294967295 ⟨_, hcorner⟩
    exact ⟨ps, hps, hshape.size⟩

end Torus

end Lattice

end QubitReuse
