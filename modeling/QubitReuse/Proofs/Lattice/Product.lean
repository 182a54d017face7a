import QubitReuse.Proofs.Lattice.RingShape
import QubitReuse.Proofs.Lattice.Torus

namespace QubitReuse

theorem Gate.mapM_eq_pure {m : Type → Type} [Monad m] [LawfulMonad m] {f : Qubit → m Qubit}
    {k : Qubit → Qubit} {g : Gate} (h : ∀ q, g.Touches q → f q = pure (k q)) :
    g.mapM f = pure (g.map k) := by
  cases g with
  | pair a b =>
    rw [mapM, h a List.mem_cons_self, h b (List.mem_cons_of_mem a List.mem_cons_self), pure_bind,
      pure_bind, map]
  | release q => rw [mapM, h q List.mem_cons_self, pure_bind, map]

namespace Lattice

variable {n s : UInt32}

def scaleCheck (n s : UInt32) : Except LatticeError Unit :=
  if 1 ≤ s ∧ s ≤ n then .ok () else .error (.scaleOutOfRange s n)

theorem checkScale_eq_scaleCheck {max : UInt32} (hn : n ≤ max) (s : UInt32) :
    checkScale n s max = scaleCheck n s := by
  rw [checkScale, checkScales_eq_ok_iff.2 hn, scaleCheck]
  change (if s = 0 ∨ n < s then Except.error _ else .ok ()) = _
  by_cases hs : 1 ≤ s ∧ s ≤ n
  · rw [if_pos hs, if_neg]
    exact not_or.2 ⟨ne_zero_iff_one_le.2 hs.1, UInt32.not_lt.2 hs.2⟩
  · rw [if_neg hs, if_pos]
    rw [← ne_zero_iff_one_le, not_and_or, not_ne_iff, UInt32.not_le] at hs
    exact hs

namespace Torus

/-- The gates of a ring put on the torus, in the row of each of these sites or in its column. -/
def spreadM (n : UInt32) (qs : List Qubit) (l : Layer) : Axis → Except LatticeError Layer
  | .x => (l.flatMap fun g => qs.map fun y => (g, y)).mapM fun (g, y) =>
    g.mapM fun x => linearIndex ⟨x.id, y.id⟩ n
  | .y => (qs.flatMap fun x => l.map fun g => (x, g)).mapM fun (x, g) =>
    g.mapM fun y => linearIndex ⟨x.id, y.id⟩ n

theorem spreadM_eq {S : Nat} {l : Layer} (hn : n ≤ maxScales) (hS : S ≤ n.toNat)
    (hl : ∀ q ∈ l.ends, q.index < 2 ^ n.toNat) (axis : Axis) :
    spreadM n (line n.toNat S) l axis = .ok (spread n.toNat S l axis) := by
  have hline : ∀ {z}, z ∈ line n.toNat S → z.index < 2 ^ n.toNat :=
    lt_of_mem_line hS (toNat_le hn)
  have hends : ∀ {g q}, g ∈ l → g.Touches q → q.index < 2 ^ n.toNat :=
    fun hg hq => hl _ (Layer.mem_ends.2 ⟨_, hg, hq⟩)
  cases axis with
  | x =>
    exact mapM_pairs_eq_pure fun g hg y hy =>
      Gate.mapM_eq_pure fun x hx => linearIndex_eq hn (hends hg hx) (hline hy)
  | y =>
    exact mapM_pairs_eq_pure fun x hx g hg =>
      Gate.mapM_eq_pure fun y hy => linearIndex_eq hn (hline hx) (hends hg hy)

theorem guards_sites (n s : UInt32) : Guards (checkScale n s maxScales) (sites n s) := by
  refine .of_checkScale (fun hn hs hsn => ⟨_, sites_eq hn hs hsn⟩) fun e h => ?_
  rw [sites, h]
  rfl

theorem guards_bonds (p : Parity) (axis : Axis) (n s : UInt32) :
    Guards (checkScale n s maxScales) (bonds p axis n s) := by
  refine .of_checkScale (fun hn hs hsn => ⟨_, bonds_eq p axis hn hs hsn⟩) fun e h => ?_
  rw [bonds, h]
  rfl

theorem lt_of_mem_ends_bondLayer {N S p : Nat} {q : Qubit} (hS : S ≤ N) (hN : N ≤ 15)
    (hq : q ∈ Layer.ends (Ring.bondLayer N S p)) : q.index < 2 ^ N := by
  obtain ⟨g, hg, hgq⟩ := Layer.mem_ends.1 hq
  obtain ⟨j, -, rfl⟩ := List.mem_map.1 hg
  obtain ⟨e, -, rfl⟩ := Ring.touches_bond.1 hgq
  exact siteAt_lt hS hN _

theorem bonds_eq_spreadM (p : Parity) (axis : Axis) (hn : n ≤ maxScales) (hs : s ≠ 0)
    (hsn : s ≤ n) : bonds p axis n s =
      spreadM n (line n.toNat s.toNat) (Ring.bondLayer n.toNat s.toNat p.offset.toNat) axis := by
  have hle : s.toNat ≤ n.toNat := hsn
  rw [bonds_eq p axis hn hs hsn, bondLayer,
    spreadM_eq hn hle fun q hq => lt_of_mem_ends_bondLayer hle (toNat_le hn) hq]

theorem generators_product_of_rings (hn : n ≤ 15) (s : UInt32) :
    sites n s = (do
      let qs ← Ring.sites n s
      return qs.flatMap fun x => qs.map fun y => ⟨x.id, y.id⟩) ∧
    (∀ p axis, bonds p axis n s = do
      spreadM n (← Ring.sites n s) (← Ring.bonds p n s) axis) ∧
    Guards (scaleCheck n s) (Ring.sites n s) ∧ Guards (scaleCheck n s) (sites n s) ∧
    ∀ p, Guards (scaleCheck n s) (Ring.bonds p n s) ∧
      ∀ axis, Guards (scaleCheck n s) (bonds p axis n s) := by
  have hn31 : n ≤ Ring.maxScales := UInt32.le_trans hn (by decide)
  have hring := checkScale_eq_scaleCheck hn31 s
  have htorus := checkScale_eq_scaleCheck hn s
  have hrsites := hring ▸ Ring.guards_sites n s
  have hrbonds := fun p => hring ▸ Ring.guards_bonds p n s
  have htsites := htorus ▸ guards_sites n s
  have htbonds := fun p axis => htorus ▸ guards_bonds p axis n s
  refine ⟨?_, ?_, hrsites, htsites, fun p => ⟨hrbonds p, htbonds p⟩⟩
  · cases hcheck : scaleCheck n s with
    | error e =>
      rw [hrsites.error e hcheck, htsites.error e hcheck]
      rfl
    | ok u =>
      obtain ⟨-, hs, hsn⟩ := checkScale_eq_ok_iff.1 (htorus.trans hcheck)
      rw [Ring.sites_eq hn31 hs hsn, sites_eq hn hs hsn]
      rfl
  · intro p axis
    cases hcheck : scaleCheck n s with
    | error e =>
      rw [hrsites.error e hcheck, (htbonds p axis).error e hcheck]
      rfl
    | ok u =>
      obtain ⟨-, hs, hsn⟩ := checkScale_eq_ok_iff.1 (htorus.trans hcheck)
      rw [bonds_eq_spreadM p axis hn hs hsn, Ring.sites_eq hn31 hs hsn,
        Ring.bonds_eq p hn31 hs hsn]
      rfl

theorem generators_product_of_rings_four :
    (bonds .odd .x 2 2 = do spreadM 2 (← Ring.sites 2 2) (← Ring.bonds .odd 2 2) .x) ∧
    (∃ l, bonds .odd .x 2 2 = .ok l ∧ .pair ⟨3⟩ ⟨0⟩ ∈ l) ∧
    bonds .odd .x 2 3 = .error (.scaleOutOfRange 3 2) ∧
    Ring.bonds .odd 2 3 = .error (.scaleOutOfRange 3 2) := by
  obtain ⟨-, hbonds, -⟩ := generators_product_of_rings (n := 2) (by decide) 2
  obtain ⟨-, -, -, -, hguards⟩ := generators_product_of_rings (n := 2) (by decide) 3
  obtain ⟨hring, htorus⟩ := hguards .odd
  refine ⟨hbonds .odd .x, ?_, (htorus .x).error _ rfl, hring.error _ rfl⟩
  refine ⟨_, (hbonds .odd .x).trans rfl, ?_⟩
  decide

end Torus

end Lattice

end QubitReuse
