import QubitReuse.Slot.Pool

namespace QubitReuse.Pool

inductive Call
  | acquire (q : Qubit)
  | release (q : Qubit)
  deriving DecidableEq

def Call.run : Call → PoolM Slot
  | acquire q => Pool.acquire q
  | release q => Pool.release q

def after (p : Pool) (c : Call) : Pool :=
  match c.run p with
  | .ok _ p' => p'
  | .error _ p' => p'

def afterAll (p : Pool) (calls : List Call) : Pool := calls.foldl after p

def HandsOut (p : Pool) (calls : List Call) (s : Slot) : Prop :=
  ∃ before q rest p', calls = before ++ .acquire q :: rest ∧
    acquire q (p.afterAll before) = .ok s p'

end QubitReuse.Pool
