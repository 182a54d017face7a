import Mathlib.Data.List.Perm.Basic
import QubitReuse.Proofs.Lattice.Ring

namespace QubitReuse

theorem length_flatMap_of_forall {α β : Type} {f : α → List β} {d : Nat} {xs : List α}
    (h : ∀ x ∈ xs, (f x).length = d) : (xs.flatMap f).length = xs.length * d := by
  rw [List.length_flatMap, List.map_congr_left h, List.map_const', List.sum_replicate_nat]

theorem getElem?_flatMap_range {α : Type} {f : Nat → List α} {d K k j : Nat}
    (h : ∀ k < K, (f k).length = d) (hk : k < K) (hj : j < d) :
    ((List.range K).flatMap f)[k * d + j]? = (f k)[j]? := by
  induction K with
  | zero => cases hk
  | succ K ih =>
    have hbefore : ((List.range K).flatMap f).length = K * d := by
      rw [length_flatMap_of_forall fun k hk => h k (Nat.lt_succ_of_lt (List.mem_range.1 hk)),
        List.length_range]
    rw [List.range_succ, List.flatMap_append, List.flatMap_singleton]
    rcases Nat.lt_succ_iff_lt_or_eq.1 hk with hlt | rfl
    · have hindex : k * d + j < K * d := by
        calc
          k * d + j < (k + 1) * d := by rw [Nat.succ_mul]; exact Nat.add_lt_add_left hj _
          _ ≤ K * d := Nat.mul_le_mul_right d hlt
      rw [List.getElem?_append_left (hbefore ▸ hindex),
        ih (fun k hk => h k (Nat.lt_succ_of_lt hk)) hlt]
    · rw [List.getElem?_append_right (hbefore ▸ Nat.le_add_right _ _), hbefore,
        Nat.add_sub_cancel_left]

theorem Circuit.validateBound_eq_ok_iff {c : Circuit} {bound : Nat} :
    c.validateBound bound = .ok () ↔
      (∀ g ∈ c.gates, ¬ g.IsLoop) ∧ ∀ q ∈ c.qubits, q.index < bound := by
  have houtside : (c.gates.findSome? fun g =>
      (g.ends.find? fun q => decide (bound ≤ q.index)).map fun q => (g, q)) = none ↔
        ∀ q ∈ c.qubits, q.index < bound := by
    simp only [List.findSome?_eq_none_iff, Option.map_eq_none_iff, List.find?_eq_none,
      decide_eq_true_eq, Nat.not_le, mem_qubits]
    constructor
    · rintro h q ⟨g, hg, hq⟩
      exact h g hg q hq
    · intro h g hg q hq
      exact h q ⟨g, hg, hq⟩
  rw [← validate_eq_ok_iff, ← houtside, validateBound, bind_eq_ok_iff]
  constructor
  · rintro ⟨u, hvalid, h⟩
    refine ⟨hvalid, ?_⟩
    dsimp only at h
    split at h
    · cases h
    · assumption
  · rintro ⟨hvalid, hnone⟩
    refine ⟨(), hvalid, ?_⟩
    dsimp only
    rw [hnone]

theorem Circuit.Disjoint.validateBound_eq_ok {c : Circuit} (hc : c.Disjoint) {bound : Nat}
    (h : ∀ q ∈ c.qubits, q.index < bound) : c.validateBound bound = .ok () :=
  validateBound_eq_ok_iff.2 ⟨validate_eq_ok_iff.1 hc.validate_eq_ok, h⟩

structure Layer.Matches (l : Layer) (qs : List Qubit) : Prop where
  isPair : ∀ g ∈ l, g.isPair = true
  perm : l.ends.Perm qs

def neighborBonds (qs : List Qubit) : Layer := List.zipWith .pair qs (qs.rotateLeft 1)

namespace Lattice

/-- The check alone decides whether there is a result, and with which error there is none. -/
structure Guards {α : Type} (check : Except LatticeError Unit) (x : Except LatticeError α) :
    Prop where
  ok : check = .ok () → ∃ a, x = .ok a
  error : ∀ e, check = .error e → x = .error e

namespace Guards

variable {α : Type} {check : Except LatticeError Unit} {x : Except LatticeError α}

theorem exists_iff (h : Guards check x) : (∃ a, x = .ok a) ↔ check = .ok () := by
  refine ⟨fun ⟨a, ha⟩ => ?_, h.ok⟩
  cases hcheck : check with
  | ok u => rfl
  | error e => cases ha.symm.trans (h.error e hcheck)

theorem eq_error (h : Guards check x) {e : LatticeError} (he : x = .error e) :
    check = .error e := by
  cases hcheck : check with
  | ok u =>
    obtain ⟨a, ha⟩ := h.ok hcheck
    cases ha.symm.trans he
  | error e' =>
    cases (h.error e' hcheck).symm.trans he
    rfl

theorem of_checkScale {n s max : UInt32} (hok : n ≤ max → s ≠ 0 → s ≤ n → ∃ a, x = .ok a)
    (herror : ∀ e, checkScale n s max = .error e → x = .error e) :
    Guards (checkScale n s max) x := by
  refine ⟨fun h => ?_, herror⟩
  obtain ⟨hn, hs, hsn⟩ := checkScale_eq_ok_iff.1 h
  exact hok hn hs hsn

end Guards

theorem checkScales_ne_circuit {n max : UInt32} (cause : CircuitError) :
    checkScales n max ≠ .error (.circuit cause) := by
  rw [checkScales]
  split
  · intro h
    cases h
  · intro h
    cases h

theorem checkScale_ne_circuit {n s max : UInt32} (cause : CircuitError) :
    checkScale n s max ≠ .error (.circuit cause) := by
  rw [checkScale]
  cases h : checkScales n max with
  | error e =>
    intro heq
    cases heq
    exact checkScales_ne_circuit cause h
  | ok u =>
    change (if s = 0 ∨ n < s then .error _ else .ok ()) ≠ Except.error _
    split
    · intro h
      cases h
    · intro h
      cases h

theorem checkScale_eq_ok_iff_one_le {n s max : UInt32} :
    checkScale n s max = .ok () ↔ n ≤ max ∧ 1 ≤ s ∧ s ≤ n := by
  rw [checkScale_eq_ok_iff, ne_zero_iff_one_le]

namespace Ring

/-- Each operation on 32-bit words that finds the sites of a scale has the value that it has on
natural numbers. -/
structure ExactArithmetic (n s : UInt32) : Prop where
  count : s.toNat < 32 ∧ ((1 : UInt32) <<< s).toNat = 2 ^ s.toNat
  coarseness : s ≤ n ∧ (n - s).toNat = n.toNat - s.toNat
  stride : (n - s).toNat < 32 ∧ ((1 : UInt32) <<< (n - s)).toNat = 2 ^ (n.toNat - s.toNat)
  product : ∀ i ∈ below (1 <<< s),
    (i * (1 <<< (n - s))).toNat = i.toNat * 2 ^ (n.toNat - s.toNat)

structure ScaleShape (n s : UInt32) (l : List Qubit) (even odd : Layer) : Prop where
  arithmetic : ExactArithmetic n s
  length : l.length = 2 ^ s.toNat
  ascending : l.Pairwise (· < ·)
  index_lt : ∀ q ∈ l, q.index < 2 ^ n.toNat
  nested : s < n → ∃ finer, sites n (s + 1) = .ok finer ∧
    ∀ i < l.length, l[i]? = finer[2 * i]? ∧ 2 * i < finer.length
  even_matches : even.Matches l
  odd_matches : odd.Matches l
  perm : (even ++ odd).Perm (neighborBonds l)
  differ : 2 ≤ s → (even ++ odd).Pairwise fun g h => ¬ g.Alike h
  turned : s = 1 → ∃ a b, even = [.pair a b] ∧ odd = [.pair b a]

structure CircuitShape (n : UInt32) (d : Nat) (c : Circuit) : Prop where
  scales : (scales n).map UInt32.toNat = (List.range n.toNat).map (· + 1)
  depth : c.depth = n.toNat * d
  layer : ∀ s j, 1 ≤ s → s ≤ n → j < d → ∃ l, c.layers[(s.toNat - 1) * d + j]? = some l ∧
    bonds (if j % 2 = 0 then .even else .odd) n s = .ok l
  numGates : c.numGates = d * (2 ^ n.toNat - 1)
  validateBound : c.validateBound (2 ^ n.toNat) = .ok ()
  qubits : n ≠ 0 → d ≠ 0 → ∀ q, q ∈ c.qubits ↔ q.index < 2 ^ n.toNat

variable {n s : UInt32} {N S : Nat}

theorem guards_sites (n s : UInt32) : Guards (checkScale n s maxScales) (sites n s) := by
  refine .of_checkScale (fun hn hs hsn => ⟨_, sites_eq hn hs hsn⟩) fun e h => ?_
  rw [sites, h]
  rfl

theorem guards_bonds (p : Parity) (n s : UInt32) :
    Guards (checkScale n s maxScales) (bonds p n s) := by
  refine .of_checkScale (fun hn hs hsn => ⟨_, bonds_eq p hn hs hsn⟩) fun e h => ?_
  rw [bonds, (guards_sites n s).error e h]
  rfl

theorem guards_dmera (n : UInt32) (d : Nat) :
    Guards (checkScales n maxScales) (dmera n d) := by
  constructor
  case ok => exact fun h => ⟨_, dmera_eq (checkScales_eq_ok_iff.1 h) d⟩
  case error =>
    intro e h
    rw [dmera, h]
    rfl

theorem exactArithmetic (hn : n ≤ maxScales) (hsn : s ≤ n) : ExactArithmetic n s := by
  have hlt : n.toNat < 32 := Nat.lt_succ_of_le (toNat_le hn)
  have hle : s.toNat ≤ n.toNat := hsn
  have hs : s.toNat < 32 := Nat.lt_of_le_of_lt hle hlt
  have hsub := UInt32.toNat_sub_of_le n s hsn
  have hstride : (n - s).toNat < 32 := hsub ▸ Nat.lt_of_le_of_lt (Nat.sub_le _ _) hlt
  have hshift := hsub ▸ toNat_one_shiftLeft hstride
  refine ⟨⟨hs, toNat_one_shiftLeft hs⟩, ⟨hsn, hsub⟩, ⟨hstride, hshift⟩, ?_⟩
  intro i hi
  have hi : i.toNat < 2 ^ s.toNat := toNat_one_shiftLeft hs ▸ lt_of_mem_below hi
  have hprod : i.toNat * 2 ^ (n.toNat - s.toNat) < 2 ^ 32 := by
    calc
      i.toNat * 2 ^ (n.toNat - s.toNat) < 2 ^ s.toNat * 2 ^ (n.toNat - s.toNat) :=
        Nat.mul_lt_mul_of_pos_right hi (Nat.two_pow_pos _)
      _ = 2 ^ n.toNat := by rw [← Nat.pow_add, Nat.add_sub_cancel' hle]
      _ < 2 ^ 32 := Nat.pow_lt_pow_right Nat.one_lt_two hlt
  rw [UInt32.toNat_mul, hshift, Nat.mod_eq_of_lt hprod]

theorem index_siteAt_of_lt (hS : S ≤ N) (hN : N ≤ 31) {i : Nat} (hi : i < 2 ^ S) :
    (siteAt N S i).index = i * 2 ^ (N - S) := by
  rw [index_siteAt hS hN, Nat.mod_eq_of_lt hi]

theorem pairwise_siteAt (hS : S ≤ N) (hN : N ≤ 31) :
    ((List.range (2 ^ S)).map (siteAt N S)).Pairwise (· < ·) := by
  apply List.pairwise_map.2
  apply List.pairwise_lt_range.imp_of_mem
  intro i j hi hj hij
  rw [Qubit.lt_def, index_siteAt_of_lt hS hN (List.mem_range.1 hi),
    index_siteAt_of_lt hS hN (List.mem_range.1 hj)]
  exact Nat.mul_lt_mul_of_pos_right hij (Nat.two_pow_pos _)

theorem length_bondLayer (N S p : Nat) : (bondLayer N (S + 1) p).length = 2 ^ S := by
  rw [bondLayer, List.length_map, List.length_range, Nat.add_sub_cancel]

theorem matches_bondLayer (N S p : Nat) :
    (bondLayer N (S + 1) p).Matches ((List.range (2 ^ (S + 1))).map (siteAt N (S + 1))) := by
  refine ⟨fun g hg => ?_, perm_ends_bondLayer N S p⟩
  obtain ⟨j, -, rfl⟩ := List.mem_map.1 hg
  rfl

theorem perm_bonds (N S : Nat) : (bondLayer N (S + 1) 0 ++ bondLayer N (S + 1) 1).Perm
    ((List.range (2 ^ (S + 1))).map (bond N (S + 1))) := by
  have hperm := List.map_append_flatMap_perm (List.range (2 ^ S))
    (fun j => bond N (S + 1) (2 * j)) fun j => [bond N (S + 1) (2 * j + 1)]
  rw [← List.map_eq_flatMap] at hperm
  rw [Nat.pow_succ', ← flatMap_range_two]
  exact hperm

theorem neighborBonds_sites (N S : Nat) :
    neighborBonds ((List.range (2 ^ S)).map (siteAt N S)) =
      (List.range (2 ^ S)).map (bond N S) := by
  rw [neighborBonds, rotateLeft_eq_rotate, rotate_map_range (siteAt_mod _ _), List.zipWith_map,
    List.zipWith_self]
  rfl

theorem not_alike_bond (hS : S + 2 ≤ N) (hN : N ≤ 31) {i j : Nat} (hj : j < 2 ^ (S + 2))
    (hij : i < j) : ¬ (bond N (S + 2) i).Alike (bond N (S + 2) j) := by
  have hpow : 2 ^ (S + 2) = 4 * 2 ^ S := by rw [Nat.pow_add, Nat.mul_comm]
  rw [bond, bond, Gate.alike_pair_iff]
  simp only [siteAt_eq_iff hS hN]
  rintro (⟨h, -⟩ | ⟨h, h'⟩)
  · exact Nat.ne_of_lt hij (h.eq_of_lt_of_lt (Nat.lt_trans hij hj) hj)
  · -- Here `j` is both the site before and the site after `i`.
    have htwo : i + 2 ≡ i + 0 [MOD 2 ^ (S + 2)] := (h'.add_right 1).trans h.symm
    have hdvd : 2 ^ (S + 2) ∣ 2 := (Nat.modEq_zero_iff_dvd).1 (Nat.ModEq.add_left_cancel' i htwo)
    have hle := Nat.le_of_dvd Nat.two_pos hdvd
    have hpos := Nat.two_pow_pos S
    omega

theorem pairwise_bond (hS : S + 2 ≤ N) (hN : N ≤ 31) :
    ((List.range (2 ^ (S + 2))).map (bond N (S + 2))).Pairwise fun g h => ¬ g.Alike h := by
  apply List.pairwise_map.2
  apply List.pairwise_lt_range.imp_of_mem
  intro i j _ hj hij
  exact not_alike_bond hS hN (List.mem_range.1 hj) hij

/-- The two bonds of two sites join them both ways. -/
theorem bondLayer_one (N : Nat) :
    bondLayer N 1 0 = [.pair (siteAt N 1 0) (siteAt N 1 1)] ∧
      bondLayer N 1 1 = [.pair (siteAt N 1 1) (siteAt N 1 0)] := by
  refine ⟨rfl, ?_⟩
  change [Gate.pair (siteAt N 1 1) (siteAt N 1 2)] = _
  rw [← siteAt_mod N 1 2]
  rfl

theorem getElem?_sites_coarser (hS : S + 1 ≤ N) {i : Nat} (hi : i < 2 ^ S) :
    ((List.range (2 ^ S)).map (siteAt N S))[i]? =
      ((List.range (2 ^ (S + 1))).map (siteAt N (S + 1)))[2 * i]? ∧ 2 * i < 2 ^ (S + 1) := by
  have hi2 : 2 * i < 2 ^ (S + 1) := by
    rw [Nat.pow_succ']
    exact Nat.mul_lt_mul_of_pos_left hi Nat.two_pos
  rw [List.getElem?_map, List.getElem?_map, List.getElem?_range hi, List.getElem?_range hi2,
    Option.map_some, Option.map_some, siteAt_coarser hS]
  exact ⟨rfl, hi2⟩

theorem exists_finer_sites (hn : n ≤ maxScales) (hlt : s < n) :
    ∃ finer, sites n (s + 1) = .ok finer ∧
      ∀ i < ((List.range (2 ^ s.toNat)).map (siteAt n.toNat s.toNat)).length,
        ((List.range (2 ^ s.toNat)).map (siteAt n.toNat s.toNat))[i]? = finer[2 * i]? ∧
          2 * i < finer.length := by
  have hN := toNat_le hn
  have hlt : s.toNat + 1 ≤ n.toNat := hlt
  have hsucc : (s + 1).toNat = s.toNat + 1 := by
    rw [UInt32.toNat_add, UInt32.toNat_one]
    exact Nat.mod_eq_of_lt (by omega)
  have hfiner := sites_eq (s := s + 1) hn (fun h => by simp [h] at hsucc)
    (UInt32.le_iff_toNat_le.2 (hsucc ▸ hlt))
  refine ⟨_, hfiner, fun i hi => ?_⟩
  rw [List.length_map, List.length_range] at hi
  rw [hsucc, List.length_map, List.length_range]
  exact getElem?_sites_coarser hlt hi

theorem scaleShape {l : List Qubit} {even odd : Layer} (hl : sites n s = .ok l)
    (heven : bonds .even n s = .ok even) (hodd : bonds .odd n s = .ok odd) :
    ScaleShape n s l even odd := by
  obtain ⟨hn, hs, hsn⟩ := checkScale_eq_ok_iff.1 ((guards_sites n s).exists_iff.1 ⟨l, hl⟩)
  have hN := toNat_le hn
  have hle : s.toNat ≤ n.toNat := hsn
  obtain ⟨k, hk⟩ := Nat.exists_eq_add_one_of_ne_zero (toNat_ne_zero hs)
  cases hl.symm.trans (sites_eq hn hs hsn)
  cases heven.symm.trans (bonds_eq .even hn hs hsn)
  cases hodd.symm.trans (bonds_eq .odd hn hs hsn)
  have hperm : (bondLayer n.toNat s.toNat 0 ++ bondLayer n.toNat s.toNat 1).Perm
      ((List.range (2 ^ s.toNat)).map (bond n.toNat s.toNat)) := hk ▸ perm_bonds n.toNat k
  constructor
  case arithmetic => exact exactArithmetic hn hsn
  case length => rw [List.length_map, List.length_range]
  case ascending => exact pairwise_siteAt hle hN
  case index_lt =>
    intro q hq
    obtain ⟨i, -, rfl⟩ := List.mem_map.1 hq
    exact index_siteAt_lt hle hN i
  case nested => exact exists_finer_sites hn
  case even_matches => exact hk ▸ matches_bondLayer n.toNat k 0
  case odd_matches => exact hk ▸ matches_bondLayer n.toNat k 1
  case perm =>
    rw [neighborBonds_sites]
    exact hperm
  case differ =>
    intro htwo
    have htwo : 2 ≤ s.toNat := htwo
    obtain ⟨j, hj⟩ := Nat.exists_eq_add_of_le' htwo
    apply (hperm.pairwise_iff fun h h' => h (Eq.symm h')).2
    rw [hj] at hle ⊢
    exact pairwise_bond hle hN
  case turned =>
    intro hone
    rw [hone]
    exact ⟨_, _, bondLayer_one n.toNat⟩

theorem length_scaleLayers (N d K : Nat) : (scaleLayers N d K).length = K * d := by
  rw [scaleLayers, length_flatMap_of_forall fun _ _ =>
    (List.length_map _).trans (length_parities d), List.length_range]

theorem getElem?_scaleLayers {N d K k j : Nat} (hk : k < K) (hj : j < d) :
    (scaleLayers N d K)[k * d + j]? = some (bondLayer N (k + 1) (j % 2)) := by
  rw [scaleLayers, getElem?_flatMap_range (fun _ _ => (List.length_map _).trans (length_parities d))
    hk hj, List.getElem?_map, parities, List.getElem?_map, List.getElem?_range hj]
  rfl

theorem length_flatten_scaleLayers (N d K : Nat) :
    (scaleLayers N d K).flatten.length = d * (2 ^ K - 1) := by
  induction K with
  | zero => rw [Nat.pow_zero, Nat.sub_self, Nat.mul_zero]; rfl
  | succ K ih =>
    have hlengths : ((parities d).map (bondLayer N (K + 1))).map List.length =
        List.replicate d (2 ^ K) := by
      rw [List.map_map, List.eq_replicate_iff, List.length_map, length_parities]
      refine ⟨rfl, fun m hm => ?_⟩
      obtain ⟨p, -, rfl⟩ := List.mem_map.1 hm
      exact length_bondLayer N K p
    have hpos := Nat.two_pow_pos K
    rw [scaleLayers_succ, List.flatten_append, List.length_append, ih, List.length_flatten,
      hlengths, List.sum_replicate_nat, ← Nat.mul_add, Nat.pow_succ]
    congr 1
    omega

theorem disjoint_scaleLayers (hN : N ≤ 31) (d : Nat) : Circuit.Disjoint ⟨scaleLayers N d N⟩ := by
  intro l hl
  obtain ⟨k, hk, p, -, rfl⟩ := mem_scaleLayers.1 hl
  exact disjoint_bondLayer hk hN p

theorem circuitShape {d : Nat} {c : Circuit} (h : dmera n d = .ok c) : CircuitShape n d c := by
  have hn := checkScales_eq_ok_iff.1 ((guards_dmera n d).exists_iff.1 ⟨c, h⟩)
  have hN := toNat_le hn
  cases h.symm.trans (dmera_eq hn d)
  constructor
  case scales => exact map_toNat_scales n
  case depth => exact length_scaleLayers n.toNat d n.toNat
  case layer =>
    intro s j hs hsn hj
    have hs : 1 ≤ s.toNat := hs
    have hle : s.toNat ≤ n.toNat := hsn
    have hne := ne_zero_iff_one_le.2 hs
    refine ⟨_, getElem?_scaleLayers (Nat.lt_of_lt_of_le (Nat.sub_lt hs Nat.one_pos) hle) hj, ?_⟩
    rw [bonds_eq _ hn hne hsn, Nat.sub_add_cancel hs]
    rcases Nat.mod_two_eq_zero_or_one j with h | h
    · rw [h, if_pos rfl]
      rfl
    · rw [h, if_neg Nat.one_ne_zero]
      rfl
  case numGates => exact length_flatten_scaleLayers n.toNat d n.toNat
  case validateBound =>
    apply (disjoint_scaleLayers hN d).validateBound_eq_ok
    exact fun q hq => ((mem_qubits_scaleLayers hN).1 hq).2.2
  case qubits =>
    intro hn0 hd0 q
    have hpos : 0 < n.toNat := Nat.pos_of_ne_zero (toNat_ne_zero hn0)
    rw [mem_qubits_scaleLayers hN, and_iff_right hpos, and_iff_right (Nat.pos_of_ne_zero hd0)]

theorem dmera_runs_through_scales :
    (∀ n s, ((∃ l, sites n s = .ok l) ↔ n ≤ 31 ∧ 1 ≤ s ∧ s ≤ n) ∧
      (∀ p, (∃ l, bonds p n s = .ok l) ↔ n ≤ 31 ∧ 1 ≤ s ∧ s ≤ n) ∧
      ∀ cause, sites n s ≠ .error (.circuit cause) ∧
        ∀ p, bonds p n s ≠ .error (.circuit cause)) ∧
    (∀ n d, ((∃ c, dmera n d = .ok c) ↔ n ≤ 31) ∧
      ∀ cause, dmera n d ≠ .error (.circuit cause)) ∧
    (∀ n s l even odd, sites n s = .ok l → bonds .even n s = .ok even →
      bonds .odd n s = .ok odd → ScaleShape n s l even odd) ∧
    ∀ n d c, dmera n d = .ok c → CircuitShape n d c := by
  refine ⟨fun n s => ⟨?_, ?_, ?_⟩, fun n d => ⟨?_, ?_⟩, ?_, ?_⟩
  · exact (guards_sites n s).exists_iff.trans checkScale_eq_ok_iff_one_le
  · exact fun p => (guards_bonds p n s).exists_iff.trans checkScale_eq_ok_iff_one_le
  · intro cause
    exact ⟨fun h => checkScale_ne_circuit cause ((guards_sites n s).eq_error h),
      fun p h => checkScale_ne_circuit cause ((guards_bonds p n s).eq_error h)⟩
  · exact (guards_dmera n d).exists_iff.trans checkScales_eq_ok_iff
  · exact fun cause h => checkScales_ne_circuit cause ((guards_dmera n d).eq_error h)
  · exact fun n s l even odd => scaleShape
  · exact fun n d c => circuitShape

theorem dmera_runs_through_scales_eight :
    ScaleShape 3 2 [⟨0⟩, ⟨2⟩, ⟨4⟩, ⟨6⟩] [.pair ⟨0⟩ ⟨2⟩, .pair ⟨4⟩ ⟨6⟩]
      [.pair ⟨2⟩ ⟨4⟩, .pair ⟨6⟩ ⟨0⟩] ∧
    ∃ c, dmera 3 2 = .ok c ∧ c.depth = 6 ∧ c.numGates = 14 ∧ CircuitShape 3 2 c := by
  obtain ⟨_, hdmera, hscale, hcircuit⟩ := dmera_runs_through_scales
  obtain ⟨c, hc⟩ := (hdmera 3 2).1.2 (by decide)
  have hshape := hcircuit 3 2 c hc
  exact ⟨hscale 3 2 _ _ _ rfl rfl rfl, c, hc, hshape.depth, hshape.numGates, hshape⟩

end Ring

end Lattice

end QubitReuse
