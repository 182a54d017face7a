namespace QubitReuse

theorem exists_cons_eq_append_cons_iff {α : Type} {P : List α → α → Prop} {y : α} {l : List α} :
    (∃ before x after, y :: l = before ++ x :: after ∧ P before x) ↔
      P [] y ∨ ∃ before x after, l = before ++ x :: after ∧ P (y :: before) x := by
  constructor
  · rintro ⟨before, x, after, hl, h⟩
    cases before with
    | nil =>
      cases hl
      exact .inl h
    | cons z before =>
      cases hl
      exact .inr ⟨before, x, after, rfl, h⟩
  · rintro (h | ⟨before, x, after, rfl, h⟩)
    · exact ⟨[], y, l, rfl, h⟩
    · exact ⟨y :: before, x, after, rfl, h⟩

section Except

variable {ε ε' α β : Type}

theorem bind_eq_ok_iff {x : Except ε α} {f : α → Except ε β} {b : β} :
    (x >>= f) = .ok b ↔ ∃ a, x = .ok a ∧ f a = .ok b := by
  cases x with
  | error e => exact iff_of_false nofun fun ⟨_, h, _⟩ => nomatch h
  | ok a =>
    constructor
    · intro h
      exact ⟨a, rfl, h⟩
    · intro ⟨_, ha, hb⟩
      cases ha
      exact hb

theorem bind_eq_error_iff {x : Except ε α} {f : α → Except ε β} {e : ε} :
    (x >>= f) = .error e ↔ x = .error e ∨ ∃ a, x = .ok a ∧ f a = .error e := by
  cases x with
  | error e' => simp [bind, Except.bind]
  | ok a => simp [bind, Except.bind]

theorem eq_ok_of_mapError {x : Except ε α} {f : ε → ε'} {a : α} (h : x.mapError f = .ok a) :
    x = .ok a := by
  cases x with
  | error e => cases h
  | ok b => exact congrArg Except.ok (Except.ok.inj h)

theorem mapError_eq_ok_iff {x : Except ε α} {f : ε → ε'} {a : α} :
    x.mapError f = .ok a ↔ x = .ok a := by
  refine ⟨eq_ok_of_mapError, ?_⟩
  rintro rfl
  rfl

theorem mapError_eq_error_iff {x : Except ε α} {f : ε → ε'} {e' : ε'} :
    x.mapError f = .error e' ↔ ∃ e, x = .error e ∧ f e = e' := by
  constructor
  · intro h
    cases x with
    | error e => exact ⟨e, rfl, Except.error.inj h⟩
    | ok a => cases h
  · rintro ⟨e, rfl, rfl⟩
    rfl

theorem exists_of_map_eq_ok {x : Except ε α} {f : α → β} {b : β} (h : x.map f = .ok b) :
    ∃ a, x = .ok a ∧ f a = b := by
  cases x with
  | error e => cases h
  | ok a => exact ⟨a, rfl, Except.ok.inj h⟩

theorem forM_eq_ok_iff {f : α → Except ε Unit} {l : List α} :
    l.forM f = .ok () ↔ ∀ x ∈ l, f x = .ok () := by
  induction l with
  | nil => exact iff_of_true rfl nofun
  | cons x l ih =>
    rw [List.forM, List.forall_mem_cons, ← ih]
    cases hx : f x with
    | error e => exact iff_of_false nofun nofun
    | ok u => exact (and_iff_right rfl).symm

theorem forM_eq_error_iff {f : α → Except ε Unit} {l : List α} {e : ε} :
    l.forM f = .error e ↔ ∃ before x after, l = before ++ x :: after ∧
      (∀ y ∈ before, f y = .ok ()) ∧ f x = .error e := by
  induction l with
  | nil => simp [List.forM, pure, Except.pure]
  | cons x l ih =>
    rw [List.forM, bind_eq_error_iff, ih, exists_cons_eq_append_cons_iff]
    refine or_congr (by simp) ?_
    constructor
    · rintro ⟨_, hx, before, y, after, rfl, hbefore, hy⟩
      exact ⟨before, y, after, rfl, List.forall_mem_cons.2 ⟨hx, hbefore⟩, hy⟩
    · rintro ⟨before, y, after, rfl, hbefore, hy⟩
      obtain ⟨hx, hbefore⟩ := List.forall_mem_cons.1 hbefore
      exact ⟨(), hx, before, y, after, rfl, hbefore, hy⟩

theorem forall_of_mapM_eq_ok {f : α → Except ε β} {P : β → Prop} (hf : ∀ x y, f x = .ok y → P y)
    {xs : List α} {ys : List β} (h : xs.mapM f = .ok ys) : ∀ y ∈ ys, P y := by
  induction xs generalizing ys with
  | nil =>
    cases h
    exact nofun
  | cons x xs ih =>
    rw [List.mapM_cons] at h
    obtain ⟨y, hy, h⟩ := bind_eq_ok_iff.1 h
    obtain ⟨zs, hzs, h⟩ := bind_eq_ok_iff.1 h
    cases h
    exact List.forall_mem_cons.2 ⟨hf x y hy, ih hzs⟩

end Except

theorem mapM_eq_pure {m : Type → Type} [Monad m] [LawfulMonad m] {α β : Type} {f : α → m β}
    {g : α → β} {xs : List α} (h : ∀ x ∈ xs, f x = pure (g x)) : xs.mapM f = pure (xs.map g) := by
  induction xs with
  | nil => rfl
  | cons x xs ih =>
    have ⟨hx, hxs⟩ := List.forall_mem_cons.1 h
    rw [List.mapM_cons, hx, ih hxs, pure_bind, pure_bind, List.map_cons]

theorem mapM_pairs_eq_pure {m : Type → Type} [Monad m] [LawfulMonad m] {α β γ δ : Type}
    {c : α → β → γ} {f : γ → m δ} {g : α → β → δ} {xs : List α} {ys : List β}
    (h : ∀ x ∈ xs, ∀ y ∈ ys, f (c x y) = pure (g x y)) :
    (xs.flatMap fun x => ys.map fun y => c x y).mapM f =
      pure (xs.flatMap fun x => ys.map fun y => g x y) := by
  induction xs with
  | nil => rfl
  | cons x xs ih =>
    have ⟨hx, hxs⟩ := List.forall_mem_cons.1 h
    have hrow : (ys.map fun y => c x y).mapM f = pure (ys.map fun y => g x y) := by
      rw [List.mapM_map]
      exact mapM_eq_pure hx
    rw [List.flatMap_cons, List.mapM_append, hrow, ih hxs, pure_bind, pure_bind,
      List.flatMap_cons]

end QubitReuse
