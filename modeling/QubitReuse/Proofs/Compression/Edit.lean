import QubitReuse.Compression.Edit
import QubitReuse.Proofs.Compression.Renaming

namespace QubitReuse

theorem Gate.between_eq_error_iff {a b : Qubit} {e : CircuitError} :
    between a b = .error e ↔ a = b ∧ e = .invalidGate (.pair a b) .loop := by
  rw [between]
  split
  · rename_i hab
    rw [Except.error.injEq, eq_comm, and_iff_right hab]
  · rename_i hab
    exact iff_of_false nofun fun h => hab h.1

theorem Gate.between_eq_ok_iff {a b : Qubit} {g : Gate} :
    between a b = .ok g ↔ a ≠ b ∧ g = .pair a b := by
  rw [between]
  split
  · rename_i hab
    exact iff_of_false nofun fun h => h.1 hab
  · rename_i hab
    rw [Except.ok.injEq, eq_comm, and_iff_right hab]

namespace CircuitM

variable {c d : Circuit} {layer : Nat} {g : Gate} {a b q : Qubit} {e : CircuitError}

theorem add_eq (layer : Nat) (g : Gate) (c : Circuit) : add layer g c =
    if layer < c.depth then .ok () ⟨c.layers.modify layer (· ++ [g])⟩
    else .error (.layerOutOfRange layer c.depth) c := by
  rw [add]
  change (if layer < c.depth then _ else _ : CircuitM Unit) c = _
  split <;> rfl

theorem addPair_eq (layer : Nat) (a b : Qubit) (c : Circuit) : addPair layer a b c =
    if a = b then .error (.invalidGate (.pair a b) .loop) c else add layer (.pair a b) c := by
  rw [addPair]
  cases hg : Gate.between a b with
  | error e =>
    obtain ⟨hab, rfl⟩ := Gate.between_eq_error_iff.1 hg
    rw [if_pos hab]
    rfl
  | ok g =>
    obtain ⟨hab, rfl⟩ := Gate.between_eq_ok_iff.1 hg
    rw [if_neg hab]
    rfl

theorem add_eq_error_iff : add layer g c = .error e d ↔
    d = c ∧ c.depth ≤ layer ∧ e = .layerOutOfRange layer c.depth := by
  rw [add_eq]
  split
  · rename_i hlt
    exact iff_of_false nofun fun h => Nat.not_le_of_lt hlt h.2.1
  · rename_i hlt
    constructor
    · intro h
      cases h
      exact ⟨rfl, Nat.le_of_not_lt hlt, rfl⟩
    · rintro ⟨rfl, _, rfl⟩
      rfl

theorem addPair_eq_error_iff : addPair layer a b c = .error e d ↔
    d = c ∧ (a = b ∧ e = .invalidGate (.pair a b) .loop ∨
      a ≠ b ∧ c.depth ≤ layer ∧ e = .layerOutOfRange layer c.depth) := by
  rw [addPair_eq]
  split
  · rename_i hab
    constructor
    · intro h
      cases h
      exact ⟨rfl, .inl ⟨hab, rfl⟩⟩
    · rintro ⟨rfl, ⟨_, rfl⟩ | ⟨hne, _⟩⟩
      · rfl
      · exact absurd hab hne
  · rename_i hab
    rw [add_eq_error_iff]
    simp [hab]

end CircuitM

namespace Circuit

variable {c d : Circuit} {layer : Nat} {g : Gate} {e : CircuitError}

theorem subtract_eq_error_iff : c.subtract d = .error e ↔
    c.depth ≠ d.depth ∧ e = .shapeMismatch c.depth d.depth := by
  rw [subtract]
  split
  · rename_i hdepth
    constructor
    · intro h
      cases h
    · intro h
      exact absurd hdepth h.1
  · rename_i hdepth
    rw [Except.error.injEq, eq_comm, and_iff_right hdepth]

theorem not_isLoop_iff : (∀ g ∈ c.gates, ¬ g.IsLoop) ↔ ∀ l ∈ c.layers, ∀ g ∈ l, ¬ g.IsLoop := by
  simp only [gates, List.mem_flatten]
  constructor
  · intro h l hl g hg
    exact h g ⟨l, hl, hg⟩
  · rintro h g ⟨l, hl, hg⟩
    exact h l hl g hg

theorem not_isLoop_of_sublist (hc : ∀ g ∈ c.gates, ¬ g.IsLoop)
    (h : ∀ k ∈ d.layers, ∃ l ∈ c.layers, k.Sublist l) : ∀ g ∈ d.gates, ¬ g.IsLoop := by
  rw [not_isLoop_iff] at hc ⊢
  intro k hk g hg
  obtain ⟨l, hl, hkl⟩ := h k hk
  exact hc l hl g (hkl.subset hg)

theorem not_isLoop_of_add (hc : ∀ g ∈ c.gates, ¬ g.IsLoop) (hg : ¬ g.IsLoop)
    (h : CircuitM.add layer g c = .ok () d) : ∀ g ∈ d.gates, ¬ g.IsLoop := by
  rw [CircuitM.add_eq] at h
  split at h
  · cases h
    rw [not_isLoop_iff] at hc ⊢
    intro l hl f hf
    obtain ⟨i, hi⟩ := List.mem_iff_getElem?.1 hl
    rw [List.getElem?_modify] at hi
    obtain ⟨l', hl', rfl⟩ := Option.map_eq_some_iff.1 hi
    have hmem := List.mem_of_getElem? hl'
    split at hf
    · rcases List.mem_append.1 hf with hf | hf
      · exact hc l' hmem f hf
      · exact List.mem_singleton.1 hf ▸ hg
    · exact hc l' hmem f hf
  · cases h

theorem not_isLoop_of_subtract (hc : ∀ g ∈ c.gates, ¬ g.IsLoop) {rest : Circuit}
    (h : c.subtract d = .ok rest) : ∀ g ∈ rest.gates, ¬ g.IsLoop := by
  rw [subtract] at h
  split at h
  · cases h
    apply not_isLoop_of_sublist hc
    intro k hk
    obtain ⟨i, hi, rfl⟩ := List.mem_iff_getElem.1 hk
    rw [List.getElem_zipWith]
    exact ⟨_, List.getElem_mem _, Layer.minus_sublist _ _⟩
  · cases h

end Circuit

theorem Step.PlacedAs.not_isLoop {p p' : Pool} {st : Step} {ls : List Layer}
    (h : st.PlacedAs p p' ls) (hst : ∀ g ∈ st.gates, ¬ g.IsLoop) :
    ∀ l ∈ ls, ∀ g ∈ l, ¬ g.IsLoop := by
  cases h with
  | skip => exact nofun
  | @block l f _ _ hinj =>
    intro k hk g hg hloop
    obtain rfl := List.mem_singleton.1 hk
    obtain ⟨g', hg', rfl⟩ := List.mem_map.1 hg
    have hends : ∀ q, g'.Touches q → q ∈ Layer.ends l := fun q hq => Layer.mem_ends.2 ⟨g', hg', hq⟩
    exact hst g' hg' ((Gate.isLoop_map_iff (fun q r hq hr => hinj q hq r hr) hends).1 hloop)
  | release _ =>
    intro k hk g hg
    obtain rfl := List.mem_singleton.1 hk
    obtain rfl := List.mem_singleton.1 hg
    exact id

theorem Schedule.not_isLoop_of_place {steps : List Step} {p p' : Pool} {ls : List Layer}
    (hp : p.Sound) (h : place ⟨steps⟩ p = .ok ls p')
    (hsteps : ∀ st ∈ steps, ∀ g ∈ st.gates, ¬ g.IsLoop) : ∀ l ∈ ls, ∀ g ∈ l, ¬ g.IsLoop := by
  induction steps generalizing p ls with
  | nil =>
    rw [← (place_nil_iff.1 h).1]
    exact nofun
  | cons st steps ih =>
    obtain ⟨ls₁, p₁, ls₂, hst, hrest, rfl⟩ := place_cons_iff.1 h
    obtain ⟨hfirst, hsteps⟩ := List.forall_mem_cons.1 hsteps
    intro l hl
    rcases List.mem_append.1 hl with hl | hl
    · exact (Step.placedAs_of_place hp hst).not_isLoop hfirst l hl
    · exact ih (Step.sound_of_place hp hst) hrest hsteps l hl

namespace Circuit

open Compression

variable {c d : Circuit}

theorem not_isLoop_of_compress {frozen : QubitSet} {config : Config} {r : Report}
    (hc : ∀ g ∈ c.gates, ¬ g.IsLoop) (h : c.compress frozen config = .ok r) :
    ∀ g ∈ r.compressed.gates, ¬ g.IsLoop := by
  obtain ⟨s, out, hs, hout, rfl⟩ := exists_of_compressReduced (compressReduced_of_compress h)
  obtain ⟨rs, _, hex, hs'⟩ := c.exists_rearrange frozen config.tieBreak
  cases hs.symm.trans hs'
  obtain ⟨_, hplace⟩ := Schedule.place_of_assignSlots hout
  apply not_isLoop_iff.2
  apply Schedule.not_isLoop_of_place (Pool.sound_ofBound _) hplace
  intro st hst g hg
  have hmem : g ∈ Schedule.gates ⟨rs.flatMap (·.steps frozen)⟩ := List.mem_flatMap.2 ⟨st, hst, hg⟩
  rw [Exhausts.gates_eq] at hmem
  obtain ⟨x, hx, rfl⟩ := List.mem_map.1 hmem
  exact hc x.2 (mem_gates_iff.2 ⟨x.1, hex.subset hx⟩)

theorem Constructed.not_isLoop (h : c.Constructed) : ∀ g ∈ c.gates, ¬ g.IsLoop := by
  cases h with
  | empty => exact nofun
  | idle depth =>
    apply not_isLoop_iff.2
    intro l hl
    rw [List.eq_of_mem_replicate hl]
    exact nofun
  | ofLayers h =>
    obtain ⟨_, hvalid, hc⟩ := bind_eq_ok_iff.1 h
    cases hc
    exact validate_eq_ok_iff.1 hvalid
  | ofPairs h =>
    obtain ⟨layers, hlayers, hc⟩ := bind_eq_ok_iff.1 h
    cases hc
    apply not_isLoop_iff.2
    refine forall_of_mapM_eq_ok (fun pairs l hl => ?_) hlayers
    refine forall_of_mapM_eq_ok (fun pair g hg => ?_) hl
    obtain ⟨hne, rfl⟩ := Gate.between_eq_ok_iff.1 hg
    exact hne

theorem replace_eq (f : Circuit → Except CompressionError Circuit) (c : Circuit) : replace f c =
    match f c with
    | .ok d => .ok () d
    | .error e => .error e c := by
  rw [replace]
  change EStateM.bind (ofExcept (f c)) EStateM.set c = _
  cases f c with
  | error e => rfl
  | ok d => rfl

theorem eq_ok_of_replace {f : Circuit → Except CompressionError Circuit}
    (h : replace f c = .ok () d) : f c = .ok d := by
  rw [replace_eq] at h
  cases hf : f c with
  | error e =>
    rw [hf] at h
    cases h
  | ok d' =>
    rw [hf] at h
    cases h
    rfl

theorem eq_of_replace_eq_error {f : Circuit → Except CompressionError Circuit}
    {e : CompressionError} (h : replace f c = .error e d) : d = c := by
  rw [replace_eq] at h
  cases hf : f c with
  | error e' =>
    rw [hf] at h
    cases h
    rfl
  | ok d' =>
    rw [hf] at h
    cases h

theorem exists_of_adaptExcept {x : CircuitM Unit} {f : CircuitError → CompressionError}
    {e : CompressionError} (h : x.adaptExcept f c = .error e d) : ∃ e', x c = .error e' d := by
  rw [EStateM.adaptExcept] at h
  cases hx : x c with
  | error e' d' =>
    rw [hx] at h
    cases h
    exact ⟨e', rfl⟩
  | ok _ d' =>
    rw [hx] at h
    cases h

theorem eq_ok_of_adaptExcept {x : CircuitM Unit} {f : CircuitError → CompressionError}
    (h : x.adaptExcept f c = .ok () d) : x c = .ok () d := by
  rw [EStateM.adaptExcept] at h
  cases hx : x c with
  | error e' d' =>
    rw [hx] at h
    cases h
  | ok _ d' =>
    rw [hx] at h
    cases h
    rfl

theorem Edit.eq_of_run_eq_error {edit : Edit} {e : CompressionError}
    (h : edit.run c = .error e d) : d = c := by
  cases edit with
  | addPair layer a b =>
    obtain ⟨_, hadd⟩ := exists_of_adaptExcept h
    exact (CircuitM.addPair_eq_error_iff.1 hadd).1
  | addRelease layer q =>
    obtain ⟨_, hadd⟩ := exists_of_adaptExcept h
    exact (CircuitM.add_eq_error_iff.1 hadd).1
  | subtract d' => exact eq_of_replace_eq_error h
  | pastCone support => exact eq_of_replace_eq_error h
  | compress frozen config => exact eq_of_replace_eq_error h

theorem edit_of_error {edit : Edit} {e : CompressionError} (h : edit.run c = .error e d) :
    c.edit edit = c := by
  rw [Circuit.edit, h]
  exact Edit.eq_of_run_eq_error h

theorem Edit.not_isLoop {edit : Edit} (hc : ∀ g ∈ c.gates, ¬ g.IsLoop)
    (h : edit.run c = .ok () d) : ∀ g ∈ d.gates, ¬ g.IsLoop := by
  cases edit with
  | addPair layer a b =>
    have hadd := eq_ok_of_adaptExcept h
    rw [CircuitM.addPair_eq] at hadd
    split at hadd
    · cases hadd
    · rename_i hne
      exact not_isLoop_of_add (g := .pair a b) hc hne hadd
  | addRelease layer q => exact not_isLoop_of_add hc id (eq_ok_of_adaptExcept h)
  | subtract d' => exact not_isLoop_of_subtract hc (eq_ok_of_mapError (eq_ok_of_replace h))
  | pastCone support =>
    cases eq_ok_of_replace h
    exact fun g hg => hc g ((sublist_gates_pastCone c support).subset hg)
  | compress frozen config =>
    obtain ⟨r, hr, rfl⟩ := exists_of_map_eq_ok (eq_ok_of_replace h)
    exact not_isLoop_of_compress hc hr

theorem Reachable.not_isLoop (h : c.Reachable) : ∀ g ∈ c.gates, ¬ g.IsLoop := by
  induction h with
  | construct hc => exact hc.not_isLoop
  | @edit c edit _ ih =>
    cases hrun : edit.run c with
    | error e d =>
      rw [edit_of_error hrun]
      exact ih
    | ok _ d =>
      rw [Circuit.edit, hrun]
      exact edit.not_isLoop ih hrun

/-- A loop is reported before a missing layer, and what fails leaves the circuit as it was. -/
theorem checked_edits_keep_validity :
    (∀ c, Reachable c → c.validate = .ok () ∧
      ((∀ q ∈ c.qubits, q.index < UInt32.size - 1) →
        ∀ frozen config, ∃ r, c.compress frozen config = .ok r)) ∧
    (∀ c layer a b e d, CircuitM.addPair layer a b c = .error e d ↔
      d = c ∧ (a = b ∧ e = .invalidGate (.pair a b) .loop ∨
        a ≠ b ∧ c.depth ≤ layer ∧ e = .layerOutOfRange layer c.depth)) ∧
    (∀ c layer q e d, CircuitM.addRelease layer q c = .error e d ↔
      d = c ∧ c.depth ≤ layer ∧ e = .layerOutOfRange layer c.depth) ∧
    (∀ c d e, subtract c d = .error e ↔
      c.depth ≠ d.depth ∧ e = .shapeMismatch c.depth d.depth) ∧
    ∀ (c : Circuit) (edit : Edit) e d, edit.run c = .error e d → d = c ∧ c.edit edit = c := by
  refine ⟨fun c hc => ⟨validate_eq_ok_iff.2 hc.not_isLoop, fun hid => ?_⟩,
    fun _ _ _ _ _ _ => CircuitM.addPair_eq_error_iff,
    fun _ _ _ _ _ => CircuitM.add_eq_error_iff, fun _ _ _ => subtract_eq_error_iff,
    fun _ _ _ _ h => ⟨Edit.eq_of_run_eq_error h, edit_of_error h⟩⟩
  exact exists_compress hc.not_isLoop hid

/-- Of the edits the second one and the third one fail. -/
theorem checked_edits_keep_validity_run :
    ∃ c r, c = ((((idle 1).edit (.addPair 0 ⟨0⟩ ⟨1⟩)).edit (.addPair 7 ⟨2⟩ ⟨2⟩)).edit
        (.subtract (idle 2))).edit (.pastCone (.single ⟨1⟩)) ∧
      c = ⟨[[.pair ⟨0⟩ ⟨1⟩]]⟩ ∧ compress c .empty = .ok r ∧
      (c.edit (.compress .empty {})).validate = .ok () := by
  have hc : Reachable ⟨[[.pair ⟨0⟩ ⟨1⟩]]⟩ :=
    ((((Reachable.construct (.idle 1)).edit (.addPair 0 ⟨0⟩ ⟨1⟩)).edit (.addPair 7 ⟨2⟩ ⟨2⟩)).edit
      (.subtract (idle 2))).edit (.pastCone (.single ⟨1⟩))
  have hid : ∀ q ∈ (qubits ⟨[[.pair ⟨0⟩ ⟨1⟩]]⟩).toList, q.index < UInt32.size - 1 := by decide
  have ⟨hreachable, _⟩ := checked_edits_keep_validity
  obtain ⟨r, hr⟩ := (hreachable _ hc).2 hid .empty {}
  exact ⟨_, r, rfl, rfl, hr, (hreachable _ (hc.edit (.compress .empty {}))).1⟩

end Circuit

end QubitReuse
