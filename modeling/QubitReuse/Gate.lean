import QubitReuse.Qubit

namespace QubitReuse

/-- A pair keeps the order of its ends, a release gives its qubit back reset. -/
inductive Gate
  | pair (a b : Qubit)
  | release (q : Qubit)
  deriving DecidableEq, Inhabited

namespace Gate

def ends : Gate → List Qubit
  | pair a b => [a, b]
  | release q => [q]

def arity (g : Gate) : Nat := g.ends.length

def isRelease : Gate → Bool
  | pair _ _ => false
  | release _ => true

def isPair (g : Gate) : Bool := !g.isRelease

def Touches (g : Gate) (q : Qubit) : Prop := q ∈ g.ends

instance (g : Gate) (q : Qubit) : Decidable (g.Touches q) :=
  inferInstanceAs (Decidable (q ∈ g.ends))

def IsLoop : Gate → Prop
  | pair a b => a = b
  | release _ => False

instance : DecidablePred IsLoop
  | pair a b => inferInstanceAs (Decidable (a = b))
  | release _ => inferInstanceAs (Decidable False)

def unoriented : Gate → Gate
  | pair a b => if a ≤ b then pair a b else pair b a
  | release q => release q

def Alike (g h : Gate) : Prop := g.unoriented = h.unoriented

instance (g h : Gate) : Decidable (g.Alike h) :=
  inferInstanceAs (Decidable (g.unoriented = h.unoriented))

def mapM {m : Type → Type} [Monad m] (f : Qubit → m Qubit) : Gate → m Gate
  | pair a b => return pair (← f a) (← f b)
  | release q => return release (← f q)

def map (f : Qubit → Qubit) : Gate → Gate
  | pair a b => pair (f a) (f b)
  | release q => release (f q)

def text : Gate → String
  | pair a b => s!"({a.text}, {b.text})"
  | release q => s!"reset({q.text})"

def distinct (gs : List Gate) : List Gate := gs.eraseDupsBy fun g h => decide (g.Alike h)

@[simp] theorem ends_map (f : Qubit → Qubit) (g : Gate) : (g.map f).ends = g.ends.map f := by
  cases g <;> rfl

theorem arity_le (g : Gate) : g.arity ≤ 2 := by
  cases g with
  | pair a b => exact Nat.le_refl 2
  | release q => exact Nat.le_succ 1

theorem exists_touches (g : Gate) : ∃ q, g.Touches q := by
  cases g with
  | pair a b => exact ⟨a, List.mem_cons_self⟩
  | release q => exact ⟨q, List.mem_cons_self⟩

theorem perm_ends_unoriented (g : Gate) : g.unoriented.ends.Perm g.ends := by
  cases g with
  | pair a b =>
    simp only [unoriented]
    split
    · exact .refl _
    · exact .swap a b []
  | release q => exact .refl _

@[simp] theorem touches_unoriented {g : Gate} {q : Qubit} :
    g.unoriented.Touches q ↔ g.Touches q :=
  g.perm_ends_unoriented.mem_iff

theorem Alike.perm_ends {g h : Gate} (hgh : g.Alike h) : g.ends.Perm h.ends :=
  g.perm_ends_unoriented.symm.trans (hgh ▸ h.perm_ends_unoriented)

theorem Alike.touches_iff {g h : Gate} (hgh : g.Alike h) {q : Qubit} :
    g.Touches q ↔ h.Touches q :=
  hgh.perm_ends.mem_iff

theorem alike_pair_iff {a b c d : Qubit} :
    (pair a b).Alike (pair c d) ↔ a = c ∧ b = d ∨ a = d ∧ b = c := by
  have heq : ∀ {p q : Qubit}, p = q ↔ p.index = q.index :=
    fun {p q} => ⟨congrArg Qubit.index, Qubit.index_injective⟩
  rw [Alike, unoriented, unoriented]
  split <;> split <;> simp only [Qubit.le_def, pair.injEq, heq] at * <;> omega

theorem alike_release_iff {q r : Qubit} : (release q).Alike (release r) ↔ q = r := by
  rw [Alike, unoriented, unoriented, release.injEq]

theorem not_alike_pair_release {a b q : Qubit} : ¬ (pair a b).Alike (release q) := by
  rw [Alike, unoriented]
  split
  · exact nofun
  · exact nofun

end Gate

end QubitReuse
