import QubitReuse.Json.Basic

namespace QubitReuse.Json

def natSpelling (n : Nat) : List Char := Nat.toDigits 10 n

def spelledNat? (spelling : List Char) : Option Nat :=
  if spelling.all Char.isDigit then some (Nat.ofDigitChars 10 spelling 0) else none

def hexDigit (c : Char) : Nat :=
  if c.isDigit then c.toNat - '0'.toNat else c.toLower.toNat - 'a'.toNat + 10

def hexUnit (a b c d : Char) : Nat :=
  ((hexDigit a * 16 + hexDigit b) * 16 + hexDigit c) * 16 + hexDigit d

def unescaped : Char → Char
  | 'b' => '\x08'
  | 'f' => '\x0c'
  | 'n' => '\n'
  | 'r' => '\r'
  | 't' => '\t'
  | c => c

def isHighSurrogate (u : Nat) : Bool := 0xd800 ≤ u ∧ u < 0xdc00

def isLowSurrogate (u : Nat) : Bool := 0xdc00 ≤ u ∧ u < 0xe000

/-- Resolves the escapes of a string. Surrogates have to come in pairs. -/
def unescape? : List Char → Option (List Char)
  | [] => some []
  | '\\' :: 'u' :: a :: b :: c :: d :: rest =>
    let u := hexUnit a b c d
    if isHighSurrogate u then
      match rest with
      | '\\' :: 'u' :: a' :: b' :: c' :: d' :: rest =>
        let u' := hexUnit a' b' c' d'
        if isLowSurrogate u' then
          (unescape? rest).map (Char.ofNat (0x10000 + (u - 0xd800) * 0x400 + (u' - 0xdc00)) :: ·)
        else none
      | _ => none
    else if isLowSurrogate u then none
    else (unescape? rest).map (Char.ofNat u :: ·)
  | '\\' :: c :: rest => (unescape? rest).map (unescaped c :: ·)
  | c :: rest => (unescape? rest).map (c :: ·)

end QubitReuse.Json
