import Mathlib.Data.List.Nodup
import QubitReuse.Json.Record
import QubitReuse.Proofs.Association
import QubitReuse.Proofs.Json.Text
import QubitReuse.Proofs.Traversal

namespace QubitReuse.Json

theorem unescape?_of_isPlain {spelling : List Char} (h : IsPlain spelling) :
    unescape? spelling = some spelling := by
  induction spelling with
  | nil => rfl
  | cons c cs ih =>
    obtain ⟨hc, hcs⟩ := List.forall_mem_cons.1 h
    have htail := ih hcs
    rw [unescape?.eq_def]
    split <;> simp_all

theorem spelledNat?_natSpelling (n : Nat) : spelledNat? (natSpelling n) = some n := by
  rw [spelledNat?, if_pos (List.all_eq_true.2 fun _ h => isDigit_of_mem_natSpelling h)]
  exact congrArg some (Nat.ofDigitChars_toDigits (by decide) (by decide))

theorem plain_ofNat (n : Nat) : (ofNat n).Plain := .number n

theorem nat?_ofNat {n bound : Nat} (h : n < bound) : (ofNat n).nat? bound = some n := by
  simp [ofNat, nat?, spelledNat?_natSpelling, h]

section Lists

variable {α : Type} {toJson : α → Json} {xs : List α}

theorem plain_array (h : ∀ x ∈ xs, (toJson x).Plain) : (array (xs.map toJson)).Plain :=
  .array (List.forall_mem_map.2 h)

theorem list?_array {item? : Json → Option α} (h : ∀ x ∈ xs, item? (toJson x) = some x) :
    (array (xs.map toJson)).list? item? = some xs := by
  rw [list?, List.mapM_map]
  exact (mapM_eq_pure h).trans (congrArg some (List.map_id xs))

end Lists

def IsHeader (names : List String) : Prop :=
  names.Nodup ∧ ∀ name ∈ names, IsPlain name.toList

instance : DecidablePred IsHeader := fun _ => inferInstanceAs (Decidable (_ ∧ _))

section Records

variable {fields : List (String × Json)}

theorem plain_ofRecord (h : IsHeader (fields.map Prod.fst)) (hv : ∀ f ∈ fields, f.2.Plain) :
    (ofRecord fields).Plain :=
  .object (List.forall_mem_map.2 fun f hf => h.2 f.1 (List.mem_map_of_mem hf))
    (List.forall_mem_map.2 fun f hf => hv f hf)

theorem fields?_ofRecord (names : List String) (h : IsHeader (fields.map Prod.fst)) :
    fields? names (ofRecord fields) = some (names.map fun name => fields.lookup name) := by
  have hinj : Function.Injective String.toList := fun _ _ => String.toList_inj.1
  have hnodup : ((fields.map fun f => (f.1.toList, f.2)).map (·.1)).Nodup := by
    have hmap := List.Nodup.map hinj h.1
    rw [List.map_map] at hmap ⊢
    exact hmap
  have hlookup : ∀ name, (fields.map fun f => (f.1.toList, f.2)).lookup name.toList =
      fields.lookup name :=
    fun name => lookup_map_fst fun f _ => hinj.eq_iff.1
  rw [ofRecord, fields?, List.mapM_map, mapM_eq_pure (g := fun f => (f.1.toList, f.2))]
  · rw [Option.pure_def, Option.bind_eq_bind, Option.bind_some]
    simp only [if_pos (hnodup.filter _), hlookup]
  · intro f hf
    have hname := unescape?_of_isPlain (h.2 f.1 (List.mem_map_of_mem hf))
    simp [hname]

theorem record?_ofRecord (h : IsHeader (fields.map Prod.fst)) :
    record? (fields.map Prod.fst) (ofRecord fields) = some (fields.map Prod.snd) := by
  have hlookup : (fields.map Prod.fst).map (fun name => fields.lookup name) =
      fields.map fun f => some f.2 := by
    rw [List.map_map]
    exact List.map_congr_left fun f hf => (lookup_eq_some_iff h.1).2 hf
  rw [record?, fields?_ofRecord _ h, Option.bind_eq_bind, Option.bind_some, hlookup, List.mapM_map]
  exact mapM_eq_pure fun f _ => rfl

end Records

section Variants

variable {name : String}

theorem plain_ofName (h : IsPlain name.toList) : (ofName name).Plain := .string h

theorem name?_ofName (h : IsPlain name.toList) : (ofName name).name? = some name := by
  rw [ofName, name?, unescape?_of_isPlain h, Option.map_some, String.ofList_toList]

theorem plain_ofVariant {v : Json} (h : IsPlain name.toList) (hv : v.Plain) :
    (ofVariant name v).Plain :=
  .object (List.forall_mem_singleton.2 h) (List.forall_mem_singleton.2 hv)

theorem variant?_ofVariant {v : Json} (h : IsPlain name.toList) :
    (ofVariant name v).variant? = some (name, v) := by
  simp [ofVariant, ofRecord, variant?, unescape?_of_isPlain h]

end Variants

end QubitReuse.Json
