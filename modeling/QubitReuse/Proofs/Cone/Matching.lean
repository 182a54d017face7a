import Mathlib.Data.List.Forall2
import Mathlib.Data.List.Nodup
import QubitReuse.Proofs.Cone.Values

namespace QubitReuse

/-- A relation of gates of which the second has the names `f` for the qubits of the first. -/
structure Matching (f : Qubit → Qubit) (used : Qubit → Prop) (G : Gate → Gate → Prop) :
    Prop where
  injective : ∀ q r, used q → used r → f q = f r → q = r
  used : ∀ g g', G g g' → ∀ q, g.Touches q → used q
  touches : ∀ g g', G g g' → ∀ r, g'.Touches r ↔ ∃ q, g.Touches q ∧ f q = r
  alike : ∀ g g' h h', G g g' → G h h' → (g'.Alike h' ↔ g.Alike h)

def Circuit.Match (G : Gate → Gate → Prop) (c c' : Circuit) : Prop :=
  List.Forall₂ (List.Forall₂ G) c.layers c'.layers

theorem forall₂_zipWith {α α' β β' γ γ' : Type} {R : α → α' → Prop} {S : β → β' → Prop}
    {T : γ → γ' → Prop} {f : α → β → γ} {f' : α' → β' → γ'} {xs : List α} {xs' : List α'}
    {ys : List β} {ys' : List β'} (hxs : List.Forall₂ R xs xs') (hys : List.Forall₂ S ys ys')
    (hf : ∀ a a' b b', R a a' → S b b' → T (f a b) (f' a' b')) :
    List.Forall₂ T (List.zipWith f xs ys) (List.zipWith f' xs' ys') := by
  induction hxs generalizing ys ys' with
  | nil => exact .nil
  | cons hx _ ih =>
    cases hys with
    | nil => exact .nil
    | cons hy hys => exact .cons (hf _ _ _ _ hx hy) (ih hys)

theorem forall₂_map_eq_iff {α α' β : Type} {w : α → β} {w' : α' → β} {xs : List α}
    {xs' : List α'} : List.Forall₂ (fun x x' => w x = w' x') xs xs' ↔ xs.map w = xs'.map w' := by
  rw [← List.forall₂_eq_eq_eq, List.forall₂_map_left_iff, List.forall₂_map_right_iff]

theorem eq_of_forall₂ {α : Type} {R : α → α → Prop} (hR : ∀ x y, R x y → x = y) {xs ys : List α}
    (h : List.Forall₂ R xs ys) : xs = ys := by
  rw [← List.forall₂_eq_eq_eq]
  exact h.imp hR

theorem exists_of_mem_forall₂ {α α' : Type} {R : α → α' → Prop} {xs : List α} {xs' : List α'}
    (h : List.Forall₂ R xs xs') {x : α} (hx : x ∈ xs) : ∃ x' ∈ xs', R x x' := by
  induction h with
  | nil => cases hx
  | @cons y y' ys ys' hy _ ih =>
    cases List.mem_cons.1 hx with
    | inl heq => exact ⟨y', List.mem_cons_self, heq ▸ hy⟩
    | inr hys =>
      have ⟨x', hx', hxx'⟩ := ih hys
      exact ⟨x', List.mem_cons_of_mem y' hx', hxx'⟩

theorem QubitSet.size_eq_of_image {f : Qubit → Qubit} {s t : QubitSet}
    (hinj : ∀ q ∈ s, ∀ r ∈ s, f q = f r → q = r) (h : ∀ r, r ∈ t ↔ ∃ q ∈ s, f q = r) :
    t.size = s.size := by
  have hnodup : (s.toList.map f).Nodup := List.Nodup.map_on hinj s.nodup
  have ht : t = .ofList (s.toList.map f) :=
    eq_of_mem_iff fun r => ((h r).trans List.mem_map.symm).trans mem_ofList.symm
  rw [ht, size_ofList hnodup, List.length_map, size]

namespace Matching

variable {f : Qubit → Qubit} {used : Qubit → Prop} {G : Gate → Gate → Prop} {g g' : Gate}
  {l l' k k' : Layer} {c c' d d' : Circuit} {support support' : QubitSet} {s s' : Sweep} {q : Qubit}

section

variable (m : Matching f used G)

include m

theorem touches_iff (hg : G g g') (hq : used q) : g'.Touches (f q) ↔ g.Touches q := by
  rw [m.touches g g' hg]
  constructor
  · rintro ⟨p, hp, hpq⟩
    exact m.injective p q (m.used g g' hg p hp) hq hpq ▸ hp
  · exact fun hgq => ⟨q, hgq, rfl⟩

theorem exists_touches_iff (hl : List.Forall₂ G l l') (hq : used q) :
    (∃ g' ∈ l', g'.Touches (f q)) ↔ ∃ g ∈ l, g.Touches q := by
  induction hl with
  | nil => simp
  | cons hg _ ih => simp only [List.mem_cons, exists_eq_or_imp, ih, m.touches_iff hg hq]

theorem any_alike (hg : G g g') (hk : List.Forall₂ G k k') :
    (k'.any fun h => decide (g'.Alike h)) = k.any fun h => decide (g.Alike h) := by
  induction hk with
  | nil => rfl
  | cons hh _ ih =>
    rw [List.any_cons, List.any_cons, ih, decide_eq_decide.2 (m.alike _ _ _ _ hg hh)]

theorem eraseP_alike (hg : G g g') (hk : List.Forall₂ G k k') :
    List.Forall₂ G (k.eraseP fun h => decide (g.Alike h))
      (k'.eraseP fun h => decide (g'.Alike h)) := by
  induction hk with
  | nil => exact .nil
  | @cons h h' k k' hh hk ih =>
    rw [List.eraseP_cons, List.eraseP_cons, decide_eq_decide.2 (m.alike _ _ _ _ hg hh)]
    cases decide (g.Alike h) with
    | true => exact hk
    | false => exact .cons hh ih

theorem minus (hl : List.Forall₂ G l l') (hk : List.Forall₂ G k k') :
    List.Forall₂ G (Layer.minus l k) (Layer.minus l' k') := by
  induction hl generalizing k k' with
  | nil => exact .nil
  | cons hg _ ih =>
    rw [Layer.minus, Layer.minus, m.any_alike hg hk]
    split
    · exact ih (m.eraseP_alike hg hk)
    · exact .cons hg (ih hk)

theorem subtract (hc : c.Match G c') (hd : d.Match G d') :
    (∃ e, c.subtract d = .error e ∧ c'.subtract d' = .error e) ∨
      ∃ rest rest', c.subtract d = .ok rest ∧ c'.subtract d' = .ok rest' ∧ rest.Match G rest' := by
  have hdepth : c'.depth = c.depth := hc.length_eq.symm
  have hdepth' : d'.depth = d.depth := hd.length_eq.symm
  rw [Circuit.subtract, Circuit.subtract, hdepth, hdepth']
  split
  · exact .inr ⟨_, _, rfl, rfl, forall₂_zipWith hc hd fun _ _ _ _ => m.minus⟩
  · exact .inl ⟨_, rfl, rfl⟩

theorem used_of_mem_qubits (hc : c.Match G c') (hq : q ∈ c.qubits) : used q := by
  obtain ⟨g, hg, hgq⟩ := Circuit.mem_qubits.1 hq
  obtain ⟨g', _, hgg'⟩ := exists_of_mem_forall₂ (List.rel_flatten hc) hg
  exact m.used g g' hgg' q hgq

theorem mem_qubits (hc : c.Match G c') {r : Qubit} :
    r ∈ c'.qubits ↔ ∃ q ∈ c.qubits, f q = r := by
  constructor
  · intro hr
    obtain ⟨g', hg', hgr⟩ := Circuit.mem_qubits.1 hr
    obtain ⟨g, hg, hgg'⟩ := exists_of_mem_forall₂ (List.rel_flatten hc).flip hg'
    obtain ⟨q, hgq, hqr⟩ := (m.touches g g' hgg' r).1 hgr
    exact ⟨q, Circuit.mem_qubits.2 ⟨g, hg, hgq⟩, hqr⟩
  · rintro ⟨q, hq, rfl⟩
    apply Circuit.mem_qubits.2
    apply (m.exists_touches_iff (List.rel_flatten hc) (m.used_of_mem_qubits hc hq)).2
    exact Circuit.mem_qubits.1 hq

theorem layer (hl : List.Forall₂ G l l') (hs : ∀ q, used q → (s'.Live (f q) ↔ s.Live q)) :
    List.Forall₂ G (Sweep.layer l s).1 (Sweep.layer l' s').1 := by
  induction hl generalizing s s' with
  | nil => exact .nil
  | @cons g g' l l' hg hl ih =>
    have hkeeps : g'.ends.any s'.live.contains = g.ends.any s.live.contains := by
      rw [Bool.eq_iff_iff, Sweep.keeps_iff, Sweep.keeps_iff]
      constructor
      · rintro ⟨r, hr, hlive⟩
        obtain ⟨q, hq, rfl⟩ := (m.touches g g' hg r).1 hr
        exact ⟨q, hq, (hs q (m.used g g' hg q hq)).1 hlive⟩
      · rintro ⟨q, hq, hlive⟩
        have hused := m.used g g' hg q hq
        exact ⟨f q, (m.touches_iff hg hused).2 hq, (hs q hused).2 hlive⟩
    rw [Sweep.layer, Sweep.layer, hkeeps]
    split
    -- A kept gate makes its ends live at once, in both circuits, before the next gate is seen.
    · refine .cons hg (ih fun q hq => ?_)
      rw [Sweep.live_absorb_iff, Sweep.live_absorb_iff, m.touches_iff hg hq, hs q hq]
    · exact ih hs

theorem live_layer (hl : List.Forall₂ G l l') (hs : ∀ q, used q → (s'.Live (f q) ↔ s.Live q))
    (hq : used q) : (Sweep.layer l' s').2.Live (f q) ↔ (Sweep.layer l s).2.Live q := by
  rw [Sweep.live_layer, Sweep.live_layer, hs q hq, m.exists_touches_iff (m.layer hl hs) hq]

theorem layers {ls ls' : List Layer} (hls : List.Forall₂ (List.Forall₂ G) ls ls')
    (hs : ∀ q, used q → (s'.Live (f q) ↔ s.Live q)) :
    List.Forall₂ (List.Forall₂ G) (Sweep.layers ls s).1 (Sweep.layers ls' s').1 ∧
      ∀ q, used q → ((Sweep.layers ls' s').2.Live (f q) ↔ (Sweep.layers ls s).2.Live q) := by
  induction hls with
  | nil => exact ⟨.nil, hs⟩
  | cons hl _ ih =>
    obtain ⟨hkept, hlive⟩ := ih
    exact ⟨.cons (m.layer hl hlive) hkept, fun q hq => m.live_layer hl hlive hq⟩

theorem pastCone (hc : c.Match G c')
    (hsupport : ∀ q, used q → (f q ∈ support' ↔ q ∈ support)) :
    (c.pastCone support).Match G (c'.pastCone support') := by
  apply And.left
  apply m.layers hc
  intro q hq
  rw [Sweep.live_start, Sweep.live_start, hsupport q hq]

end

end Matching

end QubitReuse
