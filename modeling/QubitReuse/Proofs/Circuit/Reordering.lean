import Mathlib.Data.List.Forall2
import QubitReuse.Proofs.Circuit.Commuting

namespace QubitReuse

universe u

variable {V : Type u} {m : Device V} {v : Values V}

/-- The first circuit has the layers of the second one, each with its gates in some order. -/
def Circuit.Reorders (c' c : Circuit) : Prop := List.Forall₂ List.Perm c'.layers c.layers

theorem map_snd_map_label (n : Nat) (l : Layer) : (l.map (n, ·)).map Prod.snd = l := by
  rw [List.map_map]
  exact List.map_id l

theorem Layer.Disjoint.exec_of_perm {l l' : Layer} (hl : l.Disjoint) (h : l'.Perm l) :
    Layer.exec m l' v = Layer.exec m l v := by
  have hl' : l'.Disjoint := (h.flatMap_right Gate.ends).nodup_iff.2 hl
  have hbefore : ∀ {l : Layer}, l.Disjoint → (l.map (0, ·)).Pairwise Before :=
    fun hl => List.pairwise_map.2 (hl.pairwise_apart.imp .inl)
  have hexec := exec_eq_of_perm (m := m) (v := v) (h.map (0, ·)) (hbefore hl') (hbefore hl)
  rwa [map_snd_map_label, map_snd_map_label] at hexec

theorem Circuit.Disjoint.exec_of_reorders {c c' : Circuit} (hc : c.Disjoint) (h : c'.Reorders c) :
    c'.exec m v = c.exec m v := by
  cases c' with
  | mk ls' =>
  cases c with
  | mk ls =>
  change List.Forall₂ List.Perm ls' ls at h
  induction h generalizing v with
  | nil => rfl
  | cons hl _ ih =>
    have ⟨hdisjoint, hrest⟩ := List.forall_mem_cons.1 hc
    rw [exec, List.foldl_cons, hdisjoint.exec_of_perm hl]
    exact ih hrest

theorem exec_filter_least {n : Nat} {xs : List (Nat × Gate)} (hxs : ∀ x ∈ xs, n ≤ x.1)
    (h : xs.Pairwise InLayerOrder) :
    Layer.exec m ((xs.filter (·.1 ≠ n)).map Prod.snd)
        (Layer.exec m ((xs.filter (·.1 = n)).map Prod.snd) v) =
      Layer.exec m (xs.map Prod.snd) v := by
  induction xs generalizing v with
  | nil => rfl
  | cons x xs ih =>
    have ⟨hx, hxs⟩ := List.forall_mem_cons.1 hxs
    have ⟨hfirst, h⟩ := List.pairwise_cons.1 h
    by_cases hn : x.1 = n
    · rw [List.filter_cons_of_neg (by simpa using hn), List.filter_cons_of_pos (by simpa using hn)]
      exact ih hxs h
    · -- `x` waits for the gates of the least layer that come after it.
      have hapart : ∀ g ∈ (xs.filter (·.1 = n)).map Prod.snd, g.Apart x.2 := by
        intro g hg
        have ⟨y, hy, hyg⟩ := List.mem_map.1 hg
        have ⟨hmem, hyn⟩ := List.mem_filter.1 hy
        intro q hgq hxq
        have hle := hfirst y hmem ⟨q, hxq, hyg ▸ hgq⟩
        exact hn (Nat.le_antisymm (of_decide_eq_true hyn ▸ hle) hx)
      rw [List.filter_cons_of_pos (by simpa using hn), List.filter_cons_of_neg (by simpa using hn)]
      calc
        Layer.exec m ((xs.filter (·.1 ≠ n)).map Prod.snd)
            (x.2.exec m (Layer.exec m ((xs.filter (·.1 = n)).map Prod.snd) v))
          = Layer.exec m ((xs.filter (·.1 ≠ n)).map Prod.snd)
              (Layer.exec m ((xs.filter (·.1 = n)).map Prod.snd) (x.2.exec m v)) := by
          rw [Layer.exec_exec_gate hapart]
        _ = Layer.exec m (xs.map Prod.snd) (x.2.exec m v) := ih hxs h

theorem filter_numbered_cons (n : Nat) (l : Layer) (ls : List Layer) :
    (numbered n (l :: ls)).filter (·.1 = n) = l.map (n, ·) ∧
      (numbered n (l :: ls)).filter (·.1 ≠ n) = numbered (n + 1) ls := by
  have hrest : ∀ x ∈ numbered (n + 1) ls, x.1 ≠ n :=
    fun x hx => Nat.ne_of_gt (le_of_mem_numbered hx)
  rw [numbered_cons, List.filter_append, List.filter_append]
  constructor
  · rw [List.filter_eq_self.2 (by simp),
      List.filter_eq_nil_iff.2 (by simpa using hrest), List.append_nil]
  · rw [List.filter_eq_nil_iff.2 (by simp),
      List.filter_eq_self.2 (by simpa using hrest), List.nil_append]

theorem exists_layers_of_order {n : Nat} {ls : List Layer} {order : List (Nat × Gate)}
    (hperm : order.Perm (numbered n ls)) (horder : order.Pairwise InLayerOrder) :
    ∃ ls', List.Forall₂ List.Perm ls' ls ∧ ∀ {V : Type u} (m : Device V) (v : Values V),
      Layer.exec m (order.map Prod.snd) v = Circuit.exec m ⟨ls'⟩ v := by
  induction ls generalizing n order with
  | nil =>
    refine ⟨[], .nil, fun m v => ?_⟩
    rw [List.perm_nil.1 hperm]
    rfl
  | cons l ls ih =>
    have ⟨hfirst, hrest⟩ := filter_numbered_cons n l ls
    have hl := hperm.filter (·.1 = n)
    have hls := hperm.filter (·.1 ≠ n)
    rw [hfirst] at hl
    rw [hrest] at hls
    have ⟨ls', hls', hexec⟩ := ih hls (horder.filter _)
    refine ⟨(order.filter (·.1 = n)).map Prod.snd :: ls', .cons ?_ hls', fun m v => ?_⟩
    · have hsnd := hl.map Prod.snd
      rwa [map_snd_map_label] at hsnd
    · rw [← exec_filter_least (fun x hx => le_of_mem_numbered (hperm.mem_iff.1 hx)) horder, hexec]
      rfl

end QubitReuse
