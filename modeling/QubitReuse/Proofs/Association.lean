namespace QubitReuse

variable {α β γ : Type} [BEq α] [LawfulBEq α]

theorem lookup_eq_some_iff {l : List (α × β)} {a : α} {b : β} (h : (l.map Prod.fst).Nodup) :
    l.lookup a = some b ↔ (a, b) ∈ l := by
  induction l with
  | nil => exact iff_of_false nofun List.not_mem_nil
  | cons x l ih =>
    have ⟨hx, hl⟩ := List.nodup_cons.1 h
    rw [List.lookup_cons, List.mem_cons]
    by_cases ha : a = x.1
    · rw [ha, beq_self_eq_true]
      constructor
      · intro hb
        exact .inl (Prod.ext rfl (Option.some.inj hb).symm)
      · intro hmem
        cases hmem with
        | inl hxb => exact congrArg some (congrArg Prod.snd hxb).symm
        | inr hxb => exact absurd (List.mem_map_of_mem hxb) hx
    · rw [beq_eq_false_iff_ne.2 ha]
      exact (ih hl).trans (or_iff_right fun hxb => ha (congrArg Prod.fst hxb)).symm

theorem lookup_map_fst [BEq γ] [LawfulBEq γ] {f : α → γ} {l : List (α × β)} {a : α}
    (h : ∀ x ∈ l, f a = f x.1 → a = x.1) :
    (l.map fun x => (f x.1, x.2)).lookup (f a) = l.lookup a := by
  induction l with
  | nil => rfl
  | cons x l ih =>
    have ⟨hx, hl⟩ := List.forall_mem_cons.1 h
    rw [List.map_cons, List.lookup_cons, List.lookup_cons, ih hl]
    by_cases ha : a = x.1
    · rw [ha, beq_self_eq_true, beq_self_eq_true]
    · rw [beq_eq_false_iff_ne.2 ha, beq_eq_false_iff_ne.2 fun hfa => ha (hx hfa)]

end QubitReuse
