import Mathlib.Data.List.Nodup
import QubitReuse.Circuit.Execution
import QubitReuse.Proofs.Circuit.Layered

namespace QubitReuse

universe u

variable {V : Type u} {m : Device V} {v w : Values V} {A : Qubit → Prop}

def Values.AgreeOn (A : Qubit → Prop) (v w : Values V) : Prop := ∀ q, A q → v q = w q

theorem Values.AgreeOn.exec_gate (h : v.AgreeOn A w) {g : Gate} (hg : ∀ q, g.Touches q → A q) :
    (g.exec m v).AgreeOn A (g.exec m w) := by
  intro q hq
  cases g with
  | pair a b =>
    have ha := h a (hg a List.mem_cons_self)
    have hb := h b (hg b (List.mem_cons_of_mem a List.mem_cons_self))
    simp only [Gate.exec, Values.set, ha, hb, h q hq]
  | release r => simp only [Gate.exec, Values.set, h q hq]

theorem Values.AgreeOn.exec_layer (h : v.AgreeOn A w) {l : Layer}
    (hl : ∀ g ∈ l, ∀ q, g.Touches q → A q) :
    (Layer.exec m l v).AgreeOn A (Layer.exec m l w) := by
  induction l generalizing v w with
  | nil => exact h
  | cons g l ih =>
    have ⟨hg, hl⟩ := List.forall_mem_cons.1 hl
    exact ih (h.exec_gate hg) hl

namespace Gate

def Apart (g h : Gate) : Prop := ∀ q, g.Touches q → ¬ h.Touches q

theorem Apart.symm {g h : Gate} (hgh : g.Apart h) : h.Apart g := fun q hq hq' => hgh q hq' hq

theorem Alike.not_apart {g h : Gate} (hgh : g.Alike h) : ¬ g.Apart h := by
  intro hapart
  have ⟨q, hq⟩ := g.exists_touches
  exact hapart q hq (hgh.touches_iff.1 hq)

theorem Apart.exec_at {g h : Gate} (hgh : g.Apart h) {q : Qubit} (hq : g.Touches q) :
    g.exec m (h.exec m v) q = h.exec m (g.exec m v) q := by
  have hagree : (h.exec m v).AgreeOn g.Touches v := fun p hp => exec_of_not_touches m (hgh p hp) v
  rw [hagree.exec_gate (fun _ => id) q hq, exec_of_not_touches m (hgh q hq)]

theorem Apart.exec_comm {g h : Gate} (hgh : g.Apart h) :
    g.exec m (h.exec m v) = h.exec m (g.exec m v) := by
  funext q
  by_cases hg : g.Touches q
  · exact hgh.exec_at hg
  · by_cases hh : h.Touches q
    · exact (hgh.symm.exec_at hh).symm
    · rw [exec_of_not_touches m hg, exec_of_not_touches m hh, exec_of_not_touches m hh,
        exec_of_not_touches m hg]

end Gate

theorem Layer.exec_exec_gate {l : Layer} {g : Gate} (h : ∀ g' ∈ l, g'.Apart g) :
    Layer.exec m l (g.exec m v) = g.exec m (Layer.exec m l v) := by
  induction l generalizing v with
  | nil => rfl
  | cons g' l ih =>
    have ⟨hg', hl⟩ := List.forall_mem_cons.1 h
    calc
      Layer.exec m (g' :: l) (g.exec m v) = Layer.exec m l (g.exec m (g'.exec m v)) :=
        congrArg (Layer.exec m l) hg'.exec_comm
      _ = g.exec m (Layer.exec m (g' :: l) v) := ih hl

/-- Gates that share a qubit stand in different layers and run in the order of these. -/
def Before (x y : Nat × Gate) : Prop := x.2.Apart y.2 ∨ x.1 < y.1

theorem Before.apart {x y : Nat × Gate} (h : Before x y) (h' : Before y x) : x.2.Apart y.2 := by
  cases h with
  | inl hxy => exact hxy
  | inr hlt =>
    cases h' with
    | inl hyx => exact hyx.symm
    | inr hgt => exact absurd hgt (Nat.lt_asymm hlt)

theorem Before.apart_of_eq {x y : Nat × Gate} (h : Before x y) (hxy : x.1 = y.1) :
    x.2.Apart y.2 := by
  cases h with
  | inl h => exact h
  | inr hlt => exact absurd hxy (Nat.ne_of_lt hlt)

theorem exec_eq_of_perm {xs ys : List (Nat × Gate)} (h : xs.Perm ys) (hxs : xs.Pairwise Before)
    (hys : ys.Pairwise Before) :
    Layer.exec m (xs.map Prod.snd) v = Layer.exec m (ys.map Prod.snd) v := by
  induction xs generalizing ys v with
  | nil => rw [h.nil_eq]
  | cons x xs ih =>
    -- In the other order `x` moves to the front, past gates that share no qubit with it.
    have ⟨as, bs, hsplit⟩ := List.append_of_mem (h.mem_iff.1 List.mem_cons_self)
    subst hsplit
    have hperm := (h.trans List.perm_middle).cons_inv
    have ⟨hx, hxs⟩ := List.pairwise_cons.1 hxs
    have hapart : ∀ g ∈ as.map Prod.snd, g.Apart x.2 := by
      intro g hg
      have ⟨a, ha, hag⟩ := List.mem_map.1 hg
      have hbefore := (List.pairwise_append.1 hys).2.2 a ha x List.mem_cons_self
      exact hag ▸ hbefore.apart (hx a (hperm.mem_iff.2 (List.mem_append_left bs ha)))
    have hrest := hys.sublist ((List.sublist_cons_self x bs).append_left as)
    calc
      Layer.exec m ((x :: xs).map Prod.snd) v
        = Layer.exec m (xs.map Prod.snd) (x.2.exec m v) := rfl
      _ = Layer.exec m ((as ++ bs).map Prod.snd) (x.2.exec m v) := ih hperm hxs hrest
      _ = Layer.exec m (bs.map Prod.snd) (Layer.exec m (as.map Prod.snd) (x.2.exec m v)) := by
        rw [List.map_append, Layer.exec_append]
      _ = Layer.exec m (bs.map Prod.snd) (x.2.exec m (Layer.exec m (as.map Prod.snd) v)) := by
        rw [Layer.exec_exec_gate hapart]
      _ = Layer.exec m ((as ++ x :: bs).map Prod.snd) v := by
        rw [List.map_append, Layer.exec_append]
        rfl

theorem Layer.Disjoint.pairwise_apart {l : Layer} (h : l.Disjoint) : l.Pairwise Gate.Apart :=
  (List.nodup_flatMap.1 h).2.imp fun hends _ hq hq' => hends hq hq'

theorem Circuit.Disjoint.validate_eq_ok {c : Circuit} (hc : c.Disjoint) : c.validate = .ok () := by
  apply Circuit.validate_eq_ok_iff.2
  intro g hg hloop
  have ⟨l, hl, hgl⟩ := List.mem_flatten.1 hg
  have hends := (List.nodup_flatMap.1 (hc l hl)).1 g hgl
  cases g with
  | pair a b => exact (List.nodup_cons.1 hends).1 (hloop ▸ List.mem_cons_self)
  | release q => exact hloop

theorem pairwise_before_numbered {ls : List Layer} (h : ∀ l ∈ ls, Layer.Disjoint l) (n : Nat) :
    (numbered n ls).Pairwise Before := by
  induction ls generalizing n with
  | nil => exact .nil
  | cons l ls ih =>
    have ⟨hl, hls⟩ := List.forall_mem_cons.1 h
    rw [numbered_cons]
    refine List.pairwise_append.2 ⟨?_, ih hls (n + 1), ?_⟩
    · exact List.pairwise_map.2 (hl.pairwise_apart.imp .inl)
    · intro x hx y hy
      have ⟨g, _, hgx⟩ := List.mem_map.1 hx
      exact .inr (hgx ▸ le_of_mem_numbered hy)

theorem Circuit.Disjoint.pairwise_before {c : Circuit} (h : c.Disjoint) :
    c.layeredGates.Pairwise Before :=
  pairwise_before_numbered h 0

end QubitReuse
