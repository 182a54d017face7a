import QubitReuse.Json.Spelling

namespace QubitReuse.Json

def ofNat (n : Nat) : Json := number (natSpelling n)

def ofName (name : String) : Json := string name.toList

def ofRecord (fields : List (String × Json)) : Json :=
  object (fields.map fun (name, v) => (name.toList, v))

def ofVariant (name : String) (v : Json) : Json := ofRecord [(name, v)]

def nat? (bound : Nat) : Json → Option Nat
  | number spelling => (spelledNat? spelling).filter (· < bound)
  | _ => none

def bool? : Json → Option Bool
  | bool b => some b
  | _ => none

def list? {α : Type} (item? : Json → Option α) : Json → Option (List α)
  | array items => items.mapM item?
  | _ => none

def pair? {α : Type} (item? : Json → Option α) : Json → Option (α × α)
  | array [v, w] => return (← item? v, ← item? w)
  | _ => none

/--
The fields of a record, in the order of the names. An object has them in any order, each at most
once, among others that do not matter; an array has the first ones.
-/
def fields? (names : List String) : Json → Option (List (Option Json))
  | object fields => do
    let fields ← fields.mapM fun (key, v) => return (← unescape? key, v)
    let known := (fields.map (·.1)).filter (names.map String.toList).contains
    if known.Nodup then some (names.map fun name => fields.lookup name.toList) else none
  | array items =>
    if items.length ≤ names.length then
      some (items.map some ++ List.replicate (names.length - items.length) none)
    else none
  | _ => none

def record? (names : List String) (v : Json) : Option (List Json) := do
  (← fields? names v).mapM id

def variant? : Json → Option (String × Json)
  | object [(key, v)] => return (String.ofList (← unescape? key), v)
  | _ => none

def name? : Json → Option String
  | string spelling => (unescape? spelling).map String.ofList
  | v => do
    let (name, .null) ← variant? v | none
    return name

end QubitReuse.Json
