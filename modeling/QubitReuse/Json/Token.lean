namespace QubitReuse.Json

inductive Token
  | openObject
  | closeObject
  | openArray
  | closeArray
  | comma
  | colon
  | null
  | bool (b : Bool)
  | number (spelling : List Char)
  | string (spelling : List Char)
  deriving DecidableEq

namespace Token

def chars : Token → List Char
  | openObject => ['\x7b']
  | closeObject => ['\x7d']
  | openArray => ['[']
  | closeArray => [']']
  | comma => [',']
  | colon => [':']
  | null => ['n', 'u', 'l', 'l']
  | bool true => ['t', 'r', 'u', 'e']
  | bool false => ['f', 'a', 'l', 's', 'e']
  | number spelling => spelling
  | string spelling => '"' :: spelling ++ ['"']

end Token

def isBlank (c : Char) : Bool := c = ' ' ∨ c = '\t' ∨ c = '\n' ∨ c = '\r'

def isHexDigit (c : Char) : Bool := c.isDigit ∨ ('a' ≤ c ∧ c ≤ 'f') ∨ ('A' ≤ c ∧ c ≤ 'F')

def isSimpleEscape (c : Char) : Bool := "\"\\/bfnrt".toList.contains c

def stringBody : List Char → Option (List Char × List Char)
  | [] => none
  | '"' :: rest => some ([], rest)
  | '\\' :: 'u' :: a :: b :: c :: d :: rest =>
    if [a, b, c, d].all isHexDigit then
      (stringBody rest).map fun (body, rest) => ('\\' :: 'u' :: a :: b :: c :: d :: body, rest)
    else none
  | '\\' :: c :: rest =>
    if isSimpleEscape c then (stringBody rest).map fun (body, rest) => ('\\' :: c :: body, rest)
    else none
  | c :: rest =>
    if c = '\\' ∨ c < ' ' then none
    else (stringBody rest).map fun (body, rest) => (c :: body, rest)

def digits (cs : List Char) : Option (List Char × List Char) :=
  if cs.takeWhile Char.isDigit = [] then none
  else some (cs.takeWhile Char.isDigit, cs.dropWhile Char.isDigit)

/-- Splits off digits of which the first is a zero only if it stands alone. -/
def integerPart : List Char → Option (List Char × List Char)
  | '0' :: rest => some (['0'], rest)
  | cs => digits cs

def fractionPart : List Char → Option (List Char × List Char)
  | '.' :: rest => (digits rest).map fun (ds, rest) => ('.' :: ds, rest)
  | cs => some ([], cs)

def exponentSign : List Char → List Char × List Char
  | '+' :: rest => (['+'], rest)
  | '-' :: rest => (['-'], rest)
  | cs => ([], cs)

def exponentPart : List Char → Option (List Char × List Char)
  | c :: rest =>
    if c = 'e' ∨ c = 'E' then
      let (sign, rest) := exponentSign rest
      (digits rest).map fun (ds, rest) => (c :: sign ++ ds, rest)
    else some ([], c :: rest)
  | [] => some ([], [])

def unsignedNumber (cs : List Char) : Option (List Char × List Char) := do
  let (int, cs) ← integerPart cs
  let (frac, cs) ← fractionPart cs
  let (exp, cs) ← exponentPart cs
  return (int ++ frac ++ exp, cs)

def signedNumber : List Char → Option (List Char × List Char)
  | '-' :: rest => (unsignedNumber rest).map fun (spelling, rest) => ('-' :: spelling, rest)
  | cs => unsignedNumber cs

def Token.split : List Char → Option (Token × List Char)
  | '\x7b' :: rest => some (.openObject, rest)
  | '\x7d' :: rest => some (.closeObject, rest)
  | '[' :: rest => some (.openArray, rest)
  | ']' :: rest => some (.closeArray, rest)
  | ',' :: rest => some (.comma, rest)
  | ':' :: rest => some (.colon, rest)
  | 'n' :: 'u' :: 'l' :: 'l' :: rest => some (.null, rest)
  | 't' :: 'r' :: 'u' :: 'e' :: rest => some (.bool true, rest)
  | 'f' :: 'a' :: 'l' :: 's' :: 'e' :: rest => some (.bool false, rest)
  | '"' :: rest => (stringBody rest).map fun (body, rest) => (.string body, rest)
  | cs => (signedNumber cs).map fun (spelling, rest) => (.number spelling, rest)

theorem eq_append_of_stringBody {cs body rest : List Char} (h : stringBody cs = some (body, rest)) :
    cs = body ++ '"' :: rest := by
  fun_induction stringBody cs generalizing body rest with
  | case1 => simp at h
  | case2 => simp_all
  | case3 a b c d cs hx ih =>
    obtain ⟨⟨body', rest'⟩, hb, he⟩ := Option.map_eq_some_iff.1 h
    simp only [Prod.mk.injEq] at he
    simp [← he.1, ← he.2, ih hb]
  | case4 => simp at h
  | case5 c cs _ hc ih =>
    obtain ⟨⟨body', rest'⟩, hb, he⟩ := Option.map_eq_some_iff.1 h
    simp only [Prod.mk.injEq] at he
    simp [← he.1, ← he.2, ih hb]
  | case6 => simp at h
  | case7 => simp at h
  | case8 c cs _ _ _ hc ih =>
    obtain ⟨⟨body', rest'⟩, hb, he⟩ := Option.map_eq_some_iff.1 h
    simp only [Prod.mk.injEq] at he
    simp [← he.1, ← he.2, ih hb]

theorem eq_append_of_digits {cs ds rest : List Char} (h : digits cs = some (ds, rest)) :
    cs = ds ++ rest ∧ ds ≠ [] := by
  simp only [digits, Option.ite_none_left_eq_some, Option.some.injEq, Prod.mk.injEq] at h
  obtain ⟨hne, rfl, rfl⟩ := h
  exact ⟨List.takeWhile_append_dropWhile.symm, hne⟩

theorem eq_append_of_integerPart {cs ds rest : List Char}
    (h : integerPart cs = some (ds, rest)) : cs = ds ++ rest ∧ ds ≠ [] := by
  simp only [integerPart] at h
  split at h
  · simp only [Option.some.injEq, Prod.mk.injEq] at h
    simp [← h.1, ← h.2]
  · exact eq_append_of_digits h

theorem eq_append_of_fractionPart {cs ds rest : List Char}
    (h : fractionPart cs = some (ds, rest)) : cs = ds ++ rest := by
  simp only [fractionPart] at h
  split at h
  · obtain ⟨⟨ds', rest'⟩, hd, he⟩ := Option.map_eq_some_iff.1 h
    simp only [Prod.mk.injEq] at he
    simp [← he.1, ← he.2, (eq_append_of_digits hd).1]
  · simp_all

theorem append_exponentSign (cs : List Char) :
    (exponentSign cs).1 ++ (exponentSign cs).2 = cs := by
  simp only [exponentSign]
  split <;> rfl

theorem eq_append_of_exponentPart {cs ds rest : List Char}
    (h : exponentPart cs = some (ds, rest)) : cs = ds ++ rest := by
  simp only [exponentPart] at h
  split at h
  · split at h
    · obtain ⟨⟨ds', rest'⟩, hd, he⟩ := Option.map_eq_some_iff.1 h
      simp only [Prod.mk.injEq] at he
      simp [← he.1, ← he.2, ← (eq_append_of_digits hd).1, append_exponentSign]
    · simp_all
  · simp_all

theorem eq_append_of_unsignedNumber {cs ds rest : List Char}
    (h : unsignedNumber cs = some (ds, rest)) : cs = ds ++ rest ∧ ds ≠ [] := by
  simp only [unsignedNumber, Option.bind_eq_bind, Option.bind_eq_some_iff] at h
  obtain ⟨⟨int, cs₁⟩, hi, ⟨frac, cs₂⟩, hf, ⟨exp, cs₃⟩, he, h⟩ := h
  simp only [Option.pure_def, Option.some.injEq, Prod.mk.injEq] at h
  obtain ⟨rfl, rfl⟩ := h
  obtain ⟨rfl, hne⟩ := eq_append_of_integerPart hi
  obtain rfl : cs₁ = frac ++ cs₂ := eq_append_of_fractionPart hf
  obtain rfl : cs₂ = exp ++ cs₃ := eq_append_of_exponentPart he
  simp [hne]

theorem eq_append_of_signedNumber {cs ds rest : List Char}
    (h : signedNumber cs = some (ds, rest)) : cs = ds ++ rest ∧ ds ≠ [] := by
  simp only [signedNumber] at h
  split at h
  · obtain ⟨⟨ds', rest'⟩, hd, he⟩ := Option.map_eq_some_iff.1 h
    simp only [Prod.mk.injEq] at he
    simp [← he.1, ← he.2, (eq_append_of_unsignedNumber hd).1]
  · exact eq_append_of_unsignedNumber h

namespace Token

theorem eq_append_of_split {cs rest : List Char} {t : Token} (h : split cs = some (t, rest)) :
    cs = t.chars ++ rest ∧ t.chars ≠ [] := by
  simp only [split] at h
  split at h
  case h_10 cs' =>
    obtain ⟨⟨body, rest'⟩, hb, he⟩ := Option.map_eq_some_iff.1 h
    simp only [Prod.mk.injEq] at he
    simp [← he.1, ← he.2, chars, eq_append_of_stringBody hb]
  case h_11 =>
    obtain ⟨⟨ds, rest'⟩, hd, he⟩ := Option.map_eq_some_iff.1 h
    simp only [Prod.mk.injEq] at he
    simpa [← he.1, ← he.2, chars] using eq_append_of_signedNumber hd
  all_goals
    simp only [Option.some.injEq, Prod.mk.injEq] at h
    simp [← h.1, ← h.2, chars]

theorem length_lt_of_split {cs rest : List Char} {t : Token} (h : split cs = some (t, rest)) :
    rest.length < cs.length := by
  have ⟨h, hne⟩ := eq_append_of_split h
  have := List.length_pos_iff.2 hne
  simp only [h, List.length_append]
  omega

def ofChars (cs : List Char) : Option (List Token) :=
  if cs.dropWhile isBlank = [] then some []
  else
    match _h : split (cs.dropWhile isBlank) with
    | none => none
    | some (t, rest) => (ofChars rest).map (t :: ·)
termination_by cs.length
decreasing_by
  have := length_lt_of_split _h
  have := (List.dropWhile_sublist isBlank : (cs.dropWhile isBlank).Sublist cs).length_le
  omega

end Token

end QubitReuse.Json
