import QubitReuse.Proofs.Lattice.RingShape
import QubitReuse.Proofs.Lattice.Torus

namespace QubitReuse

namespace Lattice.Torus

open QubitReuse.Lattice.Ring (siteAt)

variable {n s : UInt32} {N S : Nat} {p : Nat} {axis : Axis} {l l' : Layer} {q : Qubit} {g : Gate}

theorem mem_spread :
    g ∈ spread N S l axis ↔ ∃ h ∈ l, ∃ z ∈ line N S, across N z axis h = g := by
  cases axis with
  | x => simp only [spread, List.mem_flatMap, List.mem_map]
  | y =>
    simp only [spread, List.mem_flatMap, List.mem_map]
    constructor
    · rintro ⟨z, hz, h, hh, rfl⟩
      exact ⟨h, hh, z, hz, rfl⟩
    · rintro ⟨h, hh, z, hz, rfl⟩
      exact ⟨z, hz, h, hh, rfl⟩

theorem length_spread (N S : Nat) (l : Layer) (axis : Axis) :
    (spread N S l axis).length = l.length * 2 ^ S := by
  cases axis with
  | x =>
    rw [spread, length_flatMap_of_forall fun _ _ => (List.length_map _).trans (length_line N S)]
  | y =>
    rw [spread, length_flatMap_of_forall fun _ _ => List.length_map _, length_line, Nat.mul_comm]

theorem spread_perm (h : l.Perm l') (axis : Axis) :
    (spread N S l axis).Perm (spread N S l' axis) := by
  cases axis with
  | x => exact h.flatMap_right _
  | y => exact List.Perm.flatMap_left _ fun z _ => h.map _

theorem spread_append_perm (N S : Nat) (l l' : Layer) (axis : Axis) :
    (spread N S l axis ++ spread N S l' axis).Perm (spread N S (l ++ l') axis) := by
  cases axis with
  | x =>
    rw [spread, spread, spread, List.flatMap_append]
  | y =>
    apply (List.flatMap_append_perm _ _ _).trans
    apply List.Perm.flatMap_left
    intro z _
    rw [← List.map_append]

theorem perm_ends_spread (h : l.ends.Perm (line N S)) (axis : Axis) :
    (Layer.ends (spread N S l axis)).Perm (grid N S) := by
  cases axis with
  | x =>
    have hends : Layer.ends (spread N S l .x) = l.flatMap fun g =>
        (line N S).flatMap fun z => g.ends.map fun a => place N a z := by
      simp only [Layer.ends, spread, List.flatMap_assoc, List.flatMap_map, across, Gate.ends_map]
    have hcolumns : (l.flatMap fun g =>
        (line N S).flatMap fun z => g.ends.map fun a => place N a z).Perm
          (l.ends.flatMap fun a => (line N S).map fun z => place N a z) := by
      rw [Layer.ends, List.flatMap_assoc]
      exact List.Perm.flatMap_left _ fun g _ => perm_flatMap_swap _ _ _
    rw [hends]
    exact hcolumns.trans (h.flatMap_right _)
  | y =>
    have hends : Layer.ends (spread N S l .y) = (line N S).flatMap fun z =>
        l.ends.map fun a => place N z a := by
      simp only [Layer.ends, spread, List.flatMap_assoc, List.flatMap_map, List.map_flatMap,
        across, Gate.ends_map]
    rw [hends]
    exact List.Perm.flatMap_left _ fun z _ => h.map _

theorem alike_across_iff (hN : N ≤ 15) {z z' a b a' b' : Qubit} (hz : z.index < 2 ^ N)
    (hz' : z'.index < 2 ^ N) (ha : a.index < 2 ^ N) (hb : b.index < 2 ^ N)
    (ha' : a'.index < 2 ^ N) (hb' : b'.index < 2 ^ N) (axis : Axis) :
    (across N z axis (.pair a b)).Alike (across N z' axis (.pair a' b')) ↔
      z = z' ∧ (Gate.pair a b).Alike (.pair a' b') := by
  cases axis with
  | x =>
    simp only [across, Gate.map, Gate.alike_pair_iff, place_eq_iff hN, ha, hb, ha', hb', hz, hz']
    tauto
  | y =>
    simp only [across, Gate.map, Gate.alike_pair_iff, place_eq_iff hN, ha, hb, ha', hb', hz, hz']
    tauto

theorem not_alike_across (hS : S ≤ N) (hN : N ≤ 15) {z z' : Qubit} (hz : z ∈ line N S)
    (hz' : z' ∈ line N S) {i i' : Nat} (axis : Axis)
    (hne : z ≠ z' ∨ ¬ (Ring.bond N S i).Alike (Ring.bond N S i')) :
    ¬ (across N z axis (Ring.bond N S i)).Alike (across N z' axis (Ring.bond N S i')) := by
  have hlt := siteAt_lt hS hN
  rw [Ring.bond, Ring.bond, alike_across_iff hN (lt_of_mem_line hS hN hz)
    (lt_of_mem_line hS hN hz') (hlt _) (hlt _) (hlt _) (hlt _)]
  rintro ⟨heq, halike⟩
  exact hne.elim (fun h => h heq) (fun h => h halike)

theorem pairwise_spread (hS : S ≤ N) (hN : N ≤ 15) (hl : ∀ g ∈ l, ∃ i, Ring.bond N S i = g)
    (h : l.Pairwise fun g h => ¬ g.Alike h) (axis : Axis) :
    (spread N S l axis).Pairwise fun g h => ¬ g.Alike h := by
  have hline := List.nodup_iff_pairwise_ne.1 (nodup_line hS hN)
  have hacross : ∀ {z z' g g'}, z ∈ line N S → z' ∈ line N S → g ∈ l → g' ∈ l →
      z ≠ z' ∨ ¬ g.Alike g' → ¬ (across N z axis g).Alike (across N z' axis g') := by
    intro z z' g g' hz hz' hg hg' hne
    obtain ⟨i, rfl⟩ := hl g hg
    obtain ⟨i', rfl⟩ := hl g' hg'
    exact not_alike_across hS hN hz hz' axis hne
  cases axis with
  | x =>
    rw [spread, List.pairwise_flatMap]
    constructor
    · intro g hg
      apply List.pairwise_map.2
      exact hline.imp_of_mem fun hz hz' hne => hacross hz hz' hg hg (.inl hne)
    · apply h.imp_of_mem
      intro g g' hg hg' hne k hk k' hk'
      obtain ⟨z, hz, rfl⟩ := List.mem_map.1 hk
      obtain ⟨z', hz', rfl⟩ := List.mem_map.1 hk'
      exact hacross hz hz' hg hg' (.inr hne)
  | y =>
    rw [spread, List.pairwise_flatMap]
    constructor
    · intro z hz
      apply List.pairwise_map.2
      exact h.imp_of_mem fun hg hg' hne => hacross hz hz hg hg' (.inr hne)
    · apply hline.imp_of_mem
      intro z z' hz hz' hne k hk k' hk'
      obtain ⟨g, hg, rfl⟩ := List.mem_map.1 hk
      obtain ⟨g', hg', rfl⟩ := List.mem_map.1 hk'
      exact hacross hz hz' hg hg' (.inl hne)

theorem length_bondLayer (N S p : Nat) (axis : Axis) :
    (bondLayer N (S + 1) p axis).length = 2 ^ (2 * (S + 1) - 1) := by
  rw [bondLayer, length_spread, Ring.length_bondLayer, ← Nat.pow_add]
  congr 1
  omega

theorem matches_bondLayer (N S p : Nat) (axis : Axis) :
    (bondLayer N (S + 1) p axis).Matches (grid N (S + 1)) := by
  constructor
  case isPair =>
    intro g hg
    obtain ⟨h, hh, z, _, rfl⟩ := mem_spread.1 hg
    obtain ⟨i, _, rfl⟩ := List.mem_map.1 hh
    cases axis with
    | x => rfl
    | y => rfl
  case perm => exact perm_ends_spread (Ring.perm_ends_bondLayer N S p) axis

theorem disjoint_bondLayer (hS : S + 1 ≤ N) (hN : N ≤ 15) (p : Nat) (axis : Axis) :
    Layer.Disjoint (bondLayer N (S + 1) p axis) :=
  (matches_bondLayer N S p axis).perm.nodup_iff.2 (nodup_grid hS hN)

def node (N S i j : Nat) : Qubit := place N (siteAt N S i) (siteAt N S j)

def neighborBonds (N S : Nat) (axis : Axis) : Layer :=
  (List.range (2 ^ S)).flatMap fun i => (List.range (2 ^ S)).map fun j =>
    match axis with
    | .x => .pair (node N S i j) (node N S (i + 1) j)
    | .y => .pair (node N S i j) (node N S i (j + 1))

theorem neighborBonds_eq (N S : Nat) (axis : Axis) :
    neighborBonds N S axis = spread N S ((List.range (2 ^ S)).map (Ring.bond N S)) axis := by
  cases axis with
  | x =>
    simp only [spread, line, List.flatMap_map, List.map_map]
    rfl
  | y =>
    simp only [spread, line, List.flatMap_map, List.map_map]
    rfl

theorem perm_neighborBonds (N S : Nat) (axis : Axis) :
    (bondLayer N (S + 1) 0 axis ++ bondLayer N (S + 1) 1 axis).Perm
      (neighborBonds N (S + 1) axis) := by
  rw [neighborBonds_eq]
  exact (spread_append_perm N (S + 1) _ _ axis).trans (spread_perm (Ring.perm_bonds N S) axis)

theorem pairwise_neighborBonds (hS : S + 2 ≤ N) (hN : N ≤ 15) (axis : Axis) :
    (neighborBonds N (S + 2) axis).Pairwise fun g h => ¬ g.Alike h := by
  rw [neighborBonds_eq]
  apply pairwise_spread hS hN _ (Ring.pairwise_bond hS (le_ring hN)) axis
  intro g hg
  obtain ⟨i, -, rfl⟩ := List.mem_map.1 hg
  exact ⟨i, rfl⟩

theorem not_alike_of_axes (hS : S + 1 ≤ N) (hN : N ≤ 15) {g h : Gate}
    (hg : g ∈ neighborBonds N (S + 1) .x) (hh : h ∈ neighborBonds N (S + 1) .y) :
    ¬ g.Alike h := by
  rw [neighborBonds_eq] at hg hh
  obtain ⟨_, hb, z, hz, rfl⟩ := mem_spread.1 hg
  obtain ⟨_, hb', z', hz', rfl⟩ := mem_spread.1 hh
  obtain ⟨i, -, rfl⟩ := List.mem_map.1 hb
  obtain ⟨i', -, rfl⟩ := List.mem_map.1 hb'
  have hlt := siteAt_lt hS hN
  have hzlt := lt_of_mem_line hS hN hz
  have hzlt' := lt_of_mem_line hS hN hz'
  have hne := Ring.siteAt_ne_succ hS (le_ring hN) i
  simp only [across, Ring.bond, Gate.map, Gate.alike_pair_iff, place_eq_iff hN, hlt, hzlt, hzlt']
  -- Both ends of the first bond would be in the column of the second.
  rintro (⟨⟨hfirst, -⟩, hsecond, -⟩ | ⟨⟨hfirst, -⟩, hsecond, -⟩)
  · exact hne (hfirst.trans hsecond.symm)
  · exact hne (hfirst.trans hsecond.symm)

theorem index_node (hS : S ≤ N) (hN : N ≤ 15) (i j : Nat) :
    (node N S i j).index = (i % 2 ^ S + 2 ^ N * (j % 2 ^ S)) * 2 ^ (N - S) := by
  have hN' := le_ring hN
  rw [node, index_place hN (siteAt_lt hS hN i) (siteAt_lt hS hN j), Ring.index_siteAt hS hN',
    Ring.index_siteAt hS hN', Nat.add_mul, Nat.mul_assoc]

theorem grid_eq_node (N S : Nat) : grid N S =
    (List.range (2 ^ S)).flatMap fun i => (List.range (2 ^ S)).map fun j => node N S i j := by
  simp only [grid, line, List.flatMap_map, List.map_map]
  rfl

theorem sites_flattened (hn : n ≤ maxScales) (hs : s ≠ 0) (hsn : s ≤ n) :
    ∃ cs, sites n s = .ok cs ∧ cs.mapM (linearIndex · n) = .ok (grid n.toNat s.toNat) := by
  have hline : ∀ {z}, z ∈ line n.toNat s.toNat → z.index < 2 ^ n.toNat :=
    lt_of_mem_line hsn (toNat_le hn)
  exact ⟨_, sites_eq hn hs hsn,
    mapM_pairs_eq_pure fun x hx y hy => linearIndex_eq hn (hline hx) (hline hy)⟩

structure ExactArithmetic (n s : UInt32) : Prop extends Ring.ExactArithmetic n s where
  side : n.toNat < 32 ∧ ((1 : UInt32) <<< n).toNat = 2 ^ n.toNat
  half : ((1 : UInt32) <<< s) / (2 : UInt32) = 1 <<< (s - 1) ∧
    ((1 : UInt32) <<< (s - 1)).toNat = 2 ^ (s.toNat - 1)
  capacity : (((1 : UInt32) <<< (s - 1)) * (1 <<< s)).toNat = 2 ^ (2 * s.toNat - 1)
  start : ∀ p, ∀ i ∈ below (1 <<< (s - 1)), (2 * i).toNat = 2 * i.toNat ∧
    (2 * i + Parity.offset p).toNat = 2 * i.toNat + p.offset.toNat ∧
    (2 * i + p.offset + 1).toNat = 2 * i.toNat + p.offset.toNat + 1
  coordinate : ∀ i : UInt32, (i % (1 <<< s) * (1 <<< (n - s))).toNat =
    i.toNat % 2 ^ s.toNat * 2 ^ (n.toNat - s.toNat)
  index : ∀ x y : UInt32, x < 1 <<< n → y < 1 <<< n →
    ((1 <<< n) * y).toNat = 2 ^ n.toNat * y.toNat ∧
    (x + (1 <<< n) * y).toNat = x.toNat + 2 ^ n.toNat * y.toNat

def allBonds (layers : Parity → Axis → Layer) : Layer :=
  layers .even .x ++ layers .even .y ++ layers .odd .x ++ layers .odd .y

structure ScaleShape (n s : UInt32) (qs : List Qubit) (layers : Parity → Axis → Layer) :
    Prop where
  arithmetic : ExactArithmetic n s
  columns : qs = (List.range (2 ^ s.toNat)).flatMap fun i =>
    (List.range (2 ^ s.toNat)).map fun j => node n.toNat s.toNat i j
  index : ∀ i j, (node n.toNat s.toNat i j).index =
    (i % 2 ^ s.toNat + 2 ^ n.toNat * (j % 2 ^ s.toNat)) * 2 ^ (n.toNat - s.toNat)
  length : qs.length = 4 ^ s.toNat
  nodup : qs.Nodup
  matched : ∀ p axis, (layers p axis).Matches qs
  numBonds : ∀ p axis, (layers p axis).length = 2 ^ (2 * s.toNat - 1)
  disjoint : ∀ p axis, (layers p axis).Disjoint
  perm : (allBonds layers).Perm
    (neighborBonds n.toNat s.toNat .x ++ neighborBonds n.toNat s.toNat .y)
  differ : 2 ≤ s → (allBonds layers).Pairwise fun g h => ¬ g.Alike h
  once : 2 ≤ s → ∀ axis, ∀ g ∈ neighborBonds n.toNat s.toNat axis,
    (allBonds layers).unoriented.count g.unoriented = 1

structure CircuitShape (n : UInt32) (d : Nat) (c : Circuit) : Prop where
  scales : (scales n).map UInt32.toNat = (List.range n.toNat).map (· + 1)
  depth : c.depth = n.toNat * d
  layer : ∀ s j, 1 ≤ s → s ≤ n → j < d → ∃ l, c.layers[(s.toNat - 1) * d + j]? = some l ∧
    bonds (kindAt j).1 (kindAt j).2 n s = .ok l
  bound : (2 * n).toNat = 2 * n.toNat ∧ 1 <<< (2 * n.toNat) = 4 ^ n.toNat ∧
    4 ^ n.toNat < UInt32.size
  validate : validate c n = .ok ()
  qubits : n ≠ 0 → d ≠ 0 → ∀ q, q ∈ c.qubits ↔ q.index < 4 ^ n.toNat

theorem exactArithmetic (hn : n ≤ maxScales) (hs : s ≠ 0) (hsn : s ≤ n) :
    ExactArithmetic n s := by
  have hN := toNat_le hn
  have hle : s.toNat ≤ n.toNat := hsn
  have hpos : 0 < s.toNat := Nat.pos_of_ne_zero (toNat_ne_zero hs)
  have hn32 : n.toNat < 32 := Nat.lt_of_le_of_lt hN (by decide)
  have hs32 : s.toNat < 32 := Nat.lt_of_le_of_lt hle hn32
  have hside := toNat_side hn
  have hcount := toNat_one_shiftLeft hs32
  have hhalf := toNat_half hs hs32
  constructor
  case toExactArithmetic => exact Ring.exactArithmetic (UInt32.le_trans hn (by decide)) hsn
  case side => exact ⟨hn32, hside⟩
  case half =>
    refine ⟨UInt32.toNat_inj.1 ?_, hhalf⟩
    rw [UInt32.toNat_div, hcount, hhalf]
    exact Nat.pow_div hpos Nat.two_pos
  case capacity =>
    rw [UInt32.toNat_mul, hhalf, hcount, ← Nat.pow_add,
      show s.toNat - 1 + s.toNat = 2 * s.toNat - 1 by omega]
    exact Nat.mod_eq_of_lt (Nat.pow_lt_pow_right Nat.one_lt_two (by omega))
  case start =>
    intro p i hi
    have hi : i.toNat < 2 ^ (s.toNat - 1) := hhalf ▸ lt_of_mem_below hi
    have hsmall : 2 ^ (s.toNat - 1) ≤ 2 ^ 14 := Nat.pow_le_pow_right Nat.two_pos (by omega)
    have hoffset := offset_le p
    obtain ⟨htwice, hstart⟩ := toNat_start p (by omega : i.toNat < 2 ^ 31)
    refine ⟨htwice, hstart, ?_⟩
    rw [UInt32.toNat_add, hstart, UInt32.toNat_one]
    omega
  case coordinate =>
    intro i
    rw [coordinate_eq hn hsn]
    exact Ring.index_siteAt hle (le_ring hN) _
  case index =>
    intro x y hx hy
    exact toNat_number hn (hside ▸ hx) (hside ▸ hy)

theorem perm_allBonds (N S : Nat) : (allBonds fun p axis =>
    bondLayer N (S + 1) (Parity.offset p).toNat axis).Perm
      (neighborBonds N (S + 1) .x ++ neighborBonds N (S + 1) .y) := by
  have hregroup : ∀ ex ey ox oy : Layer, (ex ++ ey ++ ox ++ oy).Perm (ex ++ ox ++ (ey ++ oy)) := by
    intro ex ey ox oy
    simp only [List.append_assoc]
    exact (List.perm_append_comm_assoc ey ox oy).append_left ex
  exact (hregroup _ _ _ _).trans ((perm_neighborBonds N S .x).append (perm_neighborBonds N S .y))

theorem pairwise_allNeighborBonds (hS : S + 2 ≤ N) (hN : N ≤ 15) :
    (neighborBonds N (S + 2) .x ++ neighborBonds N (S + 2) .y).Pairwise
      fun g h => ¬ g.Alike h :=
  List.pairwise_append.2 ⟨pairwise_neighborBonds hS hN .x, pairwise_neighborBonds hS hN .y,
    fun _ hg _ hh => not_alike_of_axes hS hN hg hh⟩

theorem scaleShape (hn : n ≤ maxScales) (hs : s ≠ 0) (hsn : s ≤ n) :
    ScaleShape n s (grid n.toNat s.toNat)
      fun p axis => bondLayer n.toNat s.toNat p.offset.toNat axis := by
  have hN := toNat_le hn
  have hle : s.toNat ≤ n.toNat := hsn
  obtain ⟨k, hk⟩ := Nat.exists_eq_add_one_of_ne_zero (toNat_ne_zero hs)
  have hperm : (allBonds fun p axis => bondLayer n.toNat s.toNat (Parity.offset p).toNat axis).Perm
      (neighborBonds n.toNat s.toNat .x ++ neighborBonds n.toNat s.toNat .y) :=
    hk ▸ perm_allBonds n.toNat k
  have hdiffer : 2 ≤ s → (allBonds fun p axis =>
      bondLayer n.toNat s.toNat (Parity.offset p).toNat axis).Pairwise fun g h => ¬ g.Alike h := by
    intro htwo
    obtain ⟨j, hj⟩ := Nat.exists_eq_add_of_le' (show 2 ≤ s.toNat from htwo)
    apply (hperm.pairwise_iff fun h h' => h (Eq.symm h')).2
    rw [hj] at hle ⊢
    exact pairwise_allNeighborBonds hle hN
  constructor
  case arithmetic => exact exactArithmetic hn hs hsn
  case columns => exact grid_eq_node _ _
  case index => exact index_node hle hN
  case length => exact length_grid _ _
  case nodup => exact nodup_grid hle hN
  case matched => exact fun p axis => hk ▸ matches_bondLayer n.toNat k p.offset.toNat axis
  case numBonds => exact fun p axis => hk ▸ length_bondLayer n.toNat k p.offset.toNat axis
  case disjoint =>
    intro p axis
    rw [hk] at hle ⊢
    exact disjoint_bondLayer hle hN p.offset.toNat axis
  case perm => exact hperm
  case differ => exact hdiffer
  case once =>
    intro htwo axis g hg
    have hnodup : (Layer.unoriented (allBonds fun p axis =>
        bondLayer n.toNat s.toNat (Parity.offset p).toNat axis)).Nodup :=
      List.pairwise_map.2 (hdiffer htwo)
    apply List.count_eq_one_of_mem hnodup
    apply List.mem_map_of_mem
    apply hperm.mem_iff.2
    cases axis with
    | x => exact List.mem_append_left _ hg
    | y => exact List.mem_append_right _ hg

theorem length_scaleLayers (N d K : Nat) : (scaleLayers N d K).length = K * d := by
  rw [scaleLayers, length_flatMap_of_forall fun _ _ => (List.length_map _).trans List.length_range,
    List.length_range]

theorem getElem?_scaleLayers {N d K k j : Nat} (hk : k < K) (hj : j < d) :
    (scaleLayers N d K)[k * d + j]? =
      some (bondLayer N (k + 1) (kindAt j).1.offset.toNat (kindAt j).2) := by
  rw [scaleLayers, getElem?_flatMap_range (fun _ _ => (List.length_map _).trans List.length_range)
    hk hj, List.getElem?_map, List.getElem?_range hj]
  rfl

theorem mem_scaleLayers {d K : Nat} : l ∈ scaleLayers N d K ↔
    ∃ k < K, ∃ j < d, bondLayer N (k + 1) (kindAt j).1.offset.toNat (kindAt j).2 = l := by
  simp only [scaleLayers, List.mem_flatMap, List.mem_map, List.mem_range]

theorem disjoint_scaleLayers (hN : N ≤ 15) (d : Nat) : Circuit.Disjoint ⟨scaleLayers N d N⟩ := by
  intro l hl
  obtain ⟨k, hk, j, -, rfl⟩ := mem_scaleLayers.1 hl
  exact disjoint_bondLayer hk hN _ _

theorem mem_ends_bondLayer {p : Nat} :
    q ∈ Layer.ends (bondLayer N (S + 1) p axis) ↔ q ∈ grid N (S + 1) :=
  (matches_bondLayer N S p axis).perm.mem_iff

theorem mem_qubits_scaleLayers {d : Nat} (hN : N ≤ 15) :
    q ∈ Circuit.qubits ⟨scaleLayers N d N⟩ ↔ 0 < N ∧ 0 < d ∧ q.index < 4 ^ N := by
  rw [Circuit.mem_qubits_iff_exists_layer]
  constructor
  · rintro ⟨l, hl, hq⟩
    obtain ⟨k, hk, j, hj, rfl⟩ := mem_scaleLayers.1 hl
    exact ⟨Nat.zero_lt_of_lt hk, Nat.zero_lt_of_lt hj,
      lt_of_mem_grid hk hN (mem_ends_bondLayer.1 hq)⟩
  · rintro ⟨hpos, hd, hq⟩
    obtain ⟨K, rfl⟩ := Nat.exists_eq_succ_of_ne_zero (Nat.ne_of_gt hpos)
    exact ⟨_, mem_scaleLayers.2 ⟨K, Nat.lt_succ_self K, 0, hd, rfl⟩,
      mem_ends_bondLayer.2 ((mem_grid_iff_lt hN).2 hq)⟩

theorem circuitShape (hn : n ≤ maxScales) (d : Nat) :
    CircuitShape n d ⟨scaleLayers n.toNat d n.toNat⟩ := by
  have hN := toNat_le hn
  have hbound : 1 <<< (2 * n.toNat) = 4 ^ n.toNat := by rw [Nat.one_shiftLeft, Nat.pow_mul]
  constructor
  case scales => exact map_toNat_scales n
  case depth => exact length_scaleLayers n.toNat d n.toNat
  case layer =>
    intro s j hs hsn hj
    have hs : 1 ≤ s.toNat := hs
    have hle : s.toNat ≤ n.toNat := hsn
    have hne := ne_zero_iff_one_le.2 hs
    refine ⟨_, getElem?_scaleLayers (Nat.lt_of_lt_of_le (Nat.sub_lt hs Nat.one_pos) hle) hj, ?_⟩
    rw [bonds_eq _ _ hn hne hsn, Nat.sub_add_cancel hs]
  case bound =>
    refine ⟨?_, hbound, four_pow_lt hN⟩
    rw [UInt32.toNat_mul]
    exact Nat.mod_eq_of_lt (Nat.lt_of_le_of_lt (Nat.mul_le_mul_left 2 hN) (by decide))
  case validate =>
    have hvalid := (disjoint_scaleLayers hN d).validateBound_eq_ok fun q hq =>
      ((mem_qubits_scaleLayers hN).1 hq).2.2
    rw [validate, checkScales_eq_ok_iff.2 hn, hbound, hvalid]
    rfl
  case qubits =>
    intro hn0 hd0 q
    have hpos : 0 < n.toNat := Nat.pos_of_ne_zero (toNat_ne_zero hn0)
    rw [mem_qubits_scaleLayers hN, and_iff_right hpos, and_iff_right (Nat.pos_of_ne_zero hd0)]

theorem dmera_runs_around_axes :
    (∀ n d, n ≤ 15 → ∃ c, dmera n d = .ok c ∧ CircuitShape n d c) ∧
    (∀ n d, 15 < n → dmera n d = .error (.tooManyScales n 15)) ∧
    ∀ n s, n ≤ 15 → 1 ≤ s → s ≤ n → ∃ cs qs layers, sites n s = .ok cs ∧
      cs.mapM (linearIndex · n) = .ok qs ∧ (∀ p axis, bonds p axis n s = .ok (layers p axis)) ∧
      ScaleShape n s qs layers := by
  refine ⟨fun n d hn => ⟨_, dmera_eq hn d, circuitShape hn d⟩, ?_, ?_⟩
  · intro n d hn
    have hcheck : checkScales n maxScales = .error (.tooManyScales n 15) := if_pos hn
    rw [dmera, hcheck]
    rfl
  · intro n s hn hs hsn
    have hne := ne_zero_iff_one_le.2 hs
    obtain ⟨cs, hcs, hqs⟩ := sites_flattened hn hne hsn
    exact ⟨cs, _, _, hcs, hqs, fun p axis => bonds_eq p axis hn hne hsn, scaleShape hn hne hsn⟩

theorem dmera_runs_around_axes_sixteen :
    (∃ c, dmera 2 4 = .ok c ∧ c.depth = 8 ∧ CircuitShape 2 4 c) ∧
    dmera 16 4 = .error (.tooManyScales 16 15) ∧
    ∃ cs qs layers, sites 2 2 = .ok cs ∧ cs.mapM (linearIndex · 2) = .ok qs ∧
      (∀ p axis, bonds p axis 2 2 = .ok (layers p axis)) ∧ qs.length = 16 ∧
      ScaleShape 2 2 qs layers := by
  obtain ⟨hdmera, hrefused, hscale⟩ := dmera_runs_around_axes
  obtain ⟨c, hc, hcircuit⟩ := hdmera 2 4 (by decide)
  obtain ⟨cs, qs, layers, hcs, hqs, hlayers, hshape⟩ :=
    hscale 2 2 (by decide) (by decide) (by decide)
  exact ⟨⟨c, hc, hcircuit.depth, hcircuit⟩, hrefused 16 4 (by decide), cs, qs, layers, hcs, hqs,
    hlayers, hshape.length, hshape⟩

end Lattice.Torus

end QubitReuse
