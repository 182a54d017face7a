import QubitReuse.Json.Token

/-!
JSON values. A text is read from its tokens with an explicit stack of the arrays and objects that
are still open, so that values may be nested to any depth.
-/

namespace QubitReuse

/-- Numbers, strings and keys keep their spelling, objects the order of their fields. -/
inductive Json
  | null
  | bool (b : Bool)
  | number (spelling : List Char)
  | string (spelling : List Char)
  | array (items : List Json)
  | object (fields : List (List Char × Json))
  deriving Inhabited

namespace Json

def separate : List (List Token) → List Token
  | [] => []
  | [ts] => ts
  | ts :: rest => ts ++ .comma :: separate rest

mutual

def tokens : Json → List Token
  | null => [.null]
  | bool b => [.bool b]
  | number spelling => [.number spelling]
  | string spelling => [.string spelling]
  | array items => .openArray :: separate (itemTokens items) ++ [.closeArray]
  | object fields => .openObject :: separate (fieldTokens fields) ++ [.closeObject]

def itemTokens : List Json → List (List Token)
  | [] => []
  | v :: vs => v.tokens :: itemTokens vs

def fieldTokens : List (List Char × Json) → List (List Token)
  | [] => []
  | (key, v) :: fields => (.string key :: .colon :: v.tokens) :: fieldTokens fields

end

def render (v : Json) : String := String.ofList (v.tokens.flatMap Token.chars)

/-- An array or object that is still open: what it holds so far, the last first. -/
inductive Frame
  | array (items : List Json)
  | object (fields : List (List Char × Json)) (key : List Char)

inductive Reader
  | value (frames : List Frame)
  | item (frames : List Frame)
  | field (frames : List Frame)
  | key (fields : List (List Char × Json)) (frames : List Frame)
  | colon (fields : List (List Char × Json)) (key : List Char) (frames : List Frame)
  | complete (v : Json) (frames : List Frame)

namespace Reader

def start (frames : List Frame) : Token → Option Reader
  | .null => some (.complete .null frames)
  | .bool b => some (.complete (.bool b) frames)
  | .number spelling => some (.complete (.number spelling) frames)
  | .string spelling => some (.complete (.string spelling) frames)
  | .openArray => some (.item frames)
  | .openObject => some (.field frames)
  | _ => none

def step : Reader → Token → Option Reader
  | .value frames, t => start frames t
  | .item frames, .closeArray => some (.complete (.array []) frames)
  | .item frames, t => start (.array [] :: frames) t
  | .field frames, .closeObject => some (.complete (.object []) frames)
  | .field frames, .string k => some (.colon [] k frames)
  | .key fields frames, .string k => some (.colon fields k frames)
  | .colon fields k frames, .colon => some (.value (.object fields k :: frames))
  | .complete v (.array items :: frames), .comma => some (.value (.array (v :: items) :: frames))
  | .complete v (.array items :: frames), .closeArray =>
    some (.complete (.array (v :: items).reverse) frames)
  | .complete v (.object fields k :: frames), .comma => some (.key ((k, v) :: fields) frames)
  | .complete v (.object fields k :: frames), .closeObject =>
    some (.complete (.object ((k, v) :: fields).reverse) frames)
  | _, _ => none

def result? : Reader → Option Json
  | .complete v [] => some v
  | _ => none

end Reader

def ofTokens? (ts : List Token) : Option Json := do
  (← ts.foldlM Reader.step (.value [])).result?

def parse? (text : String) : Option Json := do
  ofTokens? (← Token.ofChars text.toList)

end Json

end QubitReuse
