import QubitReuse.Json.Spelling

namespace QubitReuse.Json

theorem induct {P : Json → Prop} (null : P .null) (bool : ∀ b, P (.bool b))
    (number : ∀ spelling, P (.number spelling)) (string : ∀ spelling, P (.string spelling))
    (array : ∀ items, (∀ v ∈ items, P v) → P (.array items))
    (object : ∀ fields, (∀ f ∈ fields, P f.2) → P (.object fields)) : ∀ v, P v
  | .null => null
  | .bool b => bool b
  | .number spelling => number spelling
  | .string spelling => string spelling
  | .array items => array items fun v _ => induct null bool number string array object v
  | .object fields => object fields fun f _ => induct null bool number string array object f.2
termination_by v => sizeOf v
decreasing_by
  · have := List.sizeOf_lt_of_mem ‹v ∈ items›
    simp only [Json.array.sizeOf_spec]
    omega
  · have := List.sizeOf_lt_of_mem ‹f ∈ fields›
    have : sizeOf f = 1 + sizeOf f.1 + sizeOf f.2 := Prod.mk.sizeOf_spec f.1 f.2
    simp only [Json.object.sizeOf_spec]
    omega

theorem separate_cons_cons (ts us : List Token) (rest : List (List Token)) :
    separate (ts :: us :: rest) = ts ++ .comma :: separate (us :: rest) :=
  rfl

section Tokens

variable {frames : List Frame}

/-- The tokens of the value are read as the value, whatever is open around it. -/
def Completes (v : Json) : Prop :=
  ∀ frames, v.tokens.foldlM Reader.step (.value frames) = some (.complete v frames)

theorem foldlM_first_item (v : Json) (vs : List Json) (ts : List Token) :
    (separate (itemTokens (v :: vs)) ++ ts).foldlM Reader.step (.item frames) =
      (separate (itemTokens (v :: vs)) ++ ts).foldlM Reader.step
        (.value (.array [] :: frames)) := by
  cases v <;> cases vs <;> rfl

theorem foldlM_items {v : Json} {vs : List Json} (h : ∀ w ∈ v :: vs, w.Completes)
    (before : List Json) :
    (separate (itemTokens (v :: vs)) ++ [Token.closeArray]).foldlM Reader.step
        (.value (.array before :: frames)) =
      some (.complete (.array (before.reverse ++ v :: vs)) frames) := by
  induction vs generalizing v before with
  | nil =>
    rw [itemTokens, itemTokens, separate, List.foldlM_append, h v List.mem_cons_self,
      ← List.reverse_cons]
    rfl
  | cons w ws ih =>
    have hws := ih (fun u hu => h u (List.mem_cons_of_mem v hu)) (v :: before)
    rw [List.reverse_cons, List.append_assoc] at hws
    rw [itemTokens, itemTokens, separate_cons_cons, List.append_assoc, List.foldlM_append,
      h v List.mem_cons_self]
    exact hws

theorem foldlM_first_field (f : List Char × Json) (fields : List (List Char × Json))
    (ts : List Token) :
    (separate (fieldTokens (f :: fields)) ++ ts).foldlM Reader.step (.field frames) =
      (separate (fieldTokens (f :: fields)) ++ ts).foldlM Reader.step (.key [] frames) := by
  cases fields <;> rfl

theorem foldlM_fields {k : List Char} {v : Json} {fields : List (List Char × Json)}
    (h : ∀ f ∈ (k, v) :: fields, f.2.Completes) (before : List (List Char × Json)) :
    (separate (fieldTokens ((k, v) :: fields)) ++ [Token.closeObject]).foldlM Reader.step
        (.key before frames) =
      some (.complete (.object (before.reverse ++ (k, v) :: fields)) frames) := by
  have hfield : (.string k :: .colon :: v.tokens).foldlM Reader.step (.key before frames) =
      some (.complete v (.object before k :: frames)) :=
    h (k, v) List.mem_cons_self _
  induction fields generalizing k v before with
  | nil =>
    rw [fieldTokens, fieldTokens, separate, List.foldlM_append, hfield, ← List.reverse_cons]
    rfl
  | cons f fields ih =>
    have hrest := ih (fun f' hf' => h f' (List.mem_cons_of_mem (k, v) hf')) ((k, v) :: before)
      (h f (List.mem_cons_of_mem (k, v) List.mem_cons_self) _)
    rw [List.reverse_cons, List.append_assoc] at hrest
    rw [fieldTokens, fieldTokens, separate_cons_cons, List.append_assoc, List.foldlM_append, hfield]
    exact hrest

theorem completes (v : Json) : v.Completes := by
  induction v using induct with
  | null => exact fun frames => rfl
  | bool b => exact fun frames => rfl
  | number spelling => exact fun frames => rfl
  | string spelling => exact fun frames => rfl
  | array items ih =>
    intro frames
    cases items with
    | nil => rfl
    | cons v vs => exact (foldlM_first_item v vs _).trans (foldlM_items ih [])
  | object fields ih =>
    intro frames
    cases fields with
    | nil => rfl
    | cons f fields => exact (foldlM_first_field f fields _).trans (foldlM_fields ih [])

theorem ofTokens?_tokens (v : Json) : ofTokens? v.tokens = some v := by
  rw [ofTokens?, v.completes]
  rfl

end Tokens

def IsPlain (spelling : List Char) : Prop := ∀ c ∈ spelling, c ≠ '"' ∧ c ≠ '\\' ∧ ' ' ≤ c

instance : DecidablePred IsPlain := fun spelling => List.decidableBAll _ spelling

/-- Numbers are natural numbers, and strings and keys have no escapes. -/
inductive Plain : Json → Prop
  | null : Plain .null
  | bool (b : Bool) : Plain (.bool b)
  | number (n : Nat) : Plain (.number (natSpelling n))
  | string {spelling : List Char} (h : IsPlain spelling) : Plain (.string spelling)
  | array {items : List Json} (h : ∀ v ∈ items, Plain v) : Plain (.array items)
  | object {fields : List (List Char × Json)} (hkeys : ∀ f ∈ fields, IsPlain f.1)
    (h : ∀ f ∈ fields, Plain f.2) : Plain (.object fields)

section Spellings

variable {rest : List Char}

theorem stringBody_append {spelling : List Char} (h : IsPlain spelling) :
    stringBody (spelling ++ '"' :: rest) = some (spelling, rest) := by
  induction spelling with
  | nil => rfl
  | cons c cs ih =>
    have hcs := ih fun d hd => h d (List.mem_cons_of_mem c hd)
    obtain ⟨hquote, hescape, hblank⟩ := h c List.mem_cons_self
    rw [List.cons_append, stringBody.eq_def]
    split <;> simp_all

def EndsNumber : List Char → Prop
  | [] => True
  | c :: _ => c.isDigit = false ∧ c ≠ '.' ∧ c ≠ 'e' ∧ c ≠ 'E'

theorem takeWhile_isDigit_append {ds : List Char} (hds : ∀ d ∈ ds, d.isDigit)
    (h : EndsNumber rest) :
    (ds ++ rest).takeWhile Char.isDigit = ds ∧ (ds ++ rest).dropWhile Char.isDigit = rest := by
  rw [List.takeWhile_append_of_pos hds, List.dropWhile_append_of_pos hds]
  cases rest with
  | nil => simp
  | cons c cs => simp [h.1]

theorem isDigit_of_mem_natSpelling {n : Nat} {c : Char} (h : c ∈ natSpelling n) : c.isDigit :=
  Nat.isDigit_of_mem_toDigits (by decide) (by decide) h

theorem exists_natSpelling_eq_cons (n : Nat) :
    ∃ d ds, natSpelling n = d :: ds ∧ d.isDigit ∧ (d = '0' → n = 0) := by
  induction n using Nat.strongRecOn with
  | _ n ih =>
    rw [natSpelling, Nat.toDigits_eq_if (by decide)]
    split
    case isTrue hlt =>
      have hdigit : ∀ k < 10, k.digitChar.isDigit ∧ (k.digitChar = '0' → k = 0) := by decide
      exact ⟨n.digitChar, [], rfl, hdigit n hlt⟩
    case isFalse hle =>
      obtain ⟨d, ds, hspelling, hd, hzero⟩ := ih (n / 10) (by omega)
      rw [natSpelling] at hspelling
      rw [hspelling]
      refine ⟨d, _, rfl, hd, fun h => ?_⟩
      have := hzero h
      omega

theorem integerPart_natSpelling (n : Nat) (h : EndsNumber rest) :
    integerPart (natSpelling n ++ rest) = some (natSpelling n, rest) := by
  obtain ⟨htake, hdrop⟩ :=
    takeWhile_isDigit_append (fun d hd => isDigit_of_mem_natSpelling (n := n) hd) h
  obtain ⟨d, ds, hspelling, _, hzero⟩ := exists_natSpelling_eq_cons n
  by_cases hd : d = '0'
  · rw [hzero hd]
    rfl
  · rw [hspelling] at htake hdrop ⊢
    rw [List.cons_append] at htake hdrop ⊢
    simp [integerPart, hd, digits, htake, hdrop]

theorem fractionPart_of_endsNumber (h : EndsNumber rest) : fractionPart rest = some ([], rest) := by
  rw [fractionPart.eq_def]
  split
  case h_1 cs => exact absurd rfl h.2.1
  case h_2 => rfl

theorem exponentPart_of_endsNumber (h : EndsNumber rest) : exponentPart rest = some ([], rest) := by
  cases rest with
  | nil => rfl
  | cons c cs => simp [exponentPart, h.2.2.1, h.2.2.2]

theorem signedNumber_natSpelling (n : Nat) (h : EndsNumber rest) :
    signedNumber (natSpelling n ++ rest) = some (natSpelling n, rest) := by
  have hunsigned : unsignedNumber (natSpelling n ++ rest) = some (natSpelling n, rest) := by
    simp [unsignedNumber, integerPart_natSpelling n h, fractionPart_of_endsNumber h,
      exponentPart_of_endsNumber h]
  obtain ⟨d, ds, hspelling, hd, _⟩ := exists_natSpelling_eq_cons n
  rw [hspelling, List.cons_append] at hunsigned ⊢
  have hsign : d ≠ '-' := by
    rintro rfl
    cases hd
  simpa [signedNumber, hsign] using hunsigned

theorem split_number (n : Nat) (h : EndsNumber rest) :
    Token.split (natSpelling n ++ rest) = some (.number (natSpelling n), rest) := by
  have hnumber := signedNumber_natSpelling n h
  obtain ⟨d, ds, hspelling, hd, _⟩ := exists_natSpelling_eq_cons n
  rw [hspelling, List.cons_append] at hnumber ⊢
  rw [Token.split.eq_def]
  split
  case h_11 =>
    rw [hnumber]
    rfl
  -- no other token begins with a digit
  all_goals simp_all

theorem ofChars_append {t : Token} (h : Token.split (t.chars ++ rest) = some (t, rest))
    (hblank : (t.chars ++ rest).dropWhile isBlank = t.chars ++ rest) :
    Token.ofChars (t.chars ++ rest) = (Token.ofChars rest).map (t :: ·) := by
  have hne : (t.chars ++ rest).dropWhile isBlank ≠ [] := by
    rw [hblank]
    exact List.append_ne_nil_of_left_ne_nil (Token.eq_append_of_split h).2 rest
  rw [Token.ofChars, if_neg hne]
  split
  case h_1 hsplit =>
    rw [hblank, h] at hsplit
    cases hsplit
  case h_2 hsplit =>
    rw [hblank, h] at hsplit
    cases hsplit
    rfl

end Spellings

def Token.isMark : Token → Bool
  | openObject | closeObject | openArray | closeArray | comma | colon => true
  | null | bool _ | number _ | string _ => false

/-- The text of the tokens is split into them, unless it ends with a number that goes on. -/
def Splits (ts : List Token) : Prop :=
  ∀ rest, EndsNumber rest →
    Token.ofChars (ts.flatMap Token.chars ++ rest) = (Token.ofChars rest).map (ts ++ ·)

namespace Splits

variable {t : Token} {ts us : List Token}

theorem nil : Splits [] := by
  intro rest _
  simp

theorem singleton (h : ∀ rest, EndsNumber rest →
    Token.ofChars (t.chars ++ rest) = (Token.ofChars rest).map (t :: ·)) : Splits [t] := by
  intro rest hrest
  rw [List.flatMap_singleton, h rest hrest]
  rfl

theorem number (n : Nat) : Splits [.number (natSpelling n)] := by
  refine .singleton fun rest hrest => ofChars_append (split_number n hrest) ?_
  obtain ⟨d, ds, hspelling, hd, _⟩ := exists_natSpelling_eq_cons n
  rw [Token.chars, hspelling, List.cons_append, List.dropWhile_cons_of_neg]
  simp only [isBlank, decide_eq_true_eq]
  rintro (rfl | rfl | rfl | rfl) <;> cases hd

theorem string {spelling : List Char} (h : IsPlain spelling) : Splits [.string spelling] := by
  refine .singleton fun rest _ => ofChars_append ?_ rfl
  simp [Token.chars, Token.split, stringBody_append h]

theorem mark_cons (ht : t.isMark) (hts : Splits ts) : Splits (t :: ts) := by
  intro rest hrest
  have hmark : ∀ rest, Token.ofChars (t.chars ++ rest) = (Token.ofChars rest).map (t :: ·) := by
    intro rest
    cases t with
    | openObject | closeObject | openArray | closeArray | comma | colon =>
      exact ofChars_append rfl rfl
    | null | bool | number | string => cases ht
  rw [List.flatMap_cons, List.append_assoc, hmark, hts rest hrest, Option.map_map]
  rfl

theorem append_mark (hts : Splits ts) (ht : t.isMark) (hus : Splits us) :
    Splits (ts ++ t :: us) := by
  intro rest hrest
  have hmark : EndsNumber ((t :: us).flatMap Token.chars ++ rest) := by
    cases t with
    | openObject | closeObject | openArray | closeArray | comma | colon =>
      exact ⟨by decide, by decide, by decide, by decide⟩
    | null | bool | number | string => cases ht
  rw [List.flatMap_append, List.append_assoc, hts _ hmark, mark_cons ht hus rest hrest,
    Option.map_map]
  simp [Function.comp_def]

theorem separate {tss : List (List Token)} (h : ∀ ts ∈ tss, Splits ts) :
    Splits (separate tss) := by
  induction tss with
  | nil => exact nil
  | cons ts tss ih =>
    have hts := h ts List.mem_cons_self
    have htss := ih fun us hus => h us (List.mem_cons_of_mem ts hus)
    cases tss with
    | nil => exact hts
    | cons us tss => exact hts.append_mark rfl htss

end Splits

theorem itemTokens_eq_map (items : List Json) : itemTokens items = items.map tokens := by
  induction items with
  | nil => rfl
  | cons v vs ih => rw [itemTokens, ih, List.map_cons]

theorem fieldTokens_eq_map (fields : List (List Char × Json)) :
    fieldTokens fields = fields.map fun f => .string f.1 :: .colon :: f.2.tokens := by
  induction fields with
  | nil => rfl
  | cons f fields ih => rw [fieldTokens, ih, List.map_cons]

theorem Plain.splits {v : Json} (h : v.Plain) : Splits v.tokens := by
  induction h with
  | null => exact .singleton fun rest _ => ofChars_append rfl rfl
  | bool b => exact .singleton fun rest _ => by cases b <;> exact ofChars_append rfl rfl
  | number n => exact .number n
  | string h => exact .string h
  | array h ih =>
    rw [tokens, itemTokens_eq_map]
    have hitems := Splits.separate (List.forall_mem_map.2 ih)
    exact .mark_cons rfl (hitems.append_mark rfl .nil)
  | object hkeys h ih =>
    rw [tokens, fieldTokens_eq_map]
    have hfields := Splits.separate (List.forall_mem_map.2 fun f hf =>
      (Splits.string (hkeys f hf)).append_mark (t := .colon) rfl (ih f hf))
    exact .mark_cons rfl (hfields.append_mark rfl .nil)

theorem Plain.parse?_render {v : Json} (h : v.Plain) : parse? v.render = some v := by
  have hnil : Token.ofChars [] = some [] := by
    rw [Token.ofChars]
    rfl
  have hsplits := h.splits [] trivial
  rw [List.append_nil, hnil, Option.map_some, List.append_nil] at hsplits
  simp [parse?, render, hsplits, ofTokens?_tokens]

end QubitReuse.Json
