import QubitReuse.Circuit.Difference
import QubitReuse.LiveSet

namespace QubitReuse

/-- The qubits whose past matters, and those among them that a kept gate has touched. -/
structure Sweep where
  live : LiveSet
  reached : LiveSet

namespace Sweep

def start (c : Circuit) (support : QubitSet) : Sweep :=
  ⟨.ofSet support c.bound, .withBound c.bound⟩

def absorb (s : Sweep) (g : Gate) : Sweep :=
  ⟨g.ends.foldl .insert s.live, g.ends.foldl .insert s.reached⟩

/-- Gates are met in stored order, so a gate that is kept can bring in later gates of its layer. -/
def layer : Layer → Sweep → Layer × Sweep
  | [], s => ([], s)
  | g :: gs, s =>
    if g.ends.any s.live.contains then
      let (kept, s') := layer gs (s.absorb g)
      (g :: kept, s')
    else layer gs s

def layers : List Layer → Sweep → List Layer × Sweep
  | [], s => ([], s)
  | l :: ls, s =>
    let (later, s') := layers ls s
    let (kept, s'') := layer l s'
    (kept :: later, s'')

end Sweep

namespace Circuit

def pastCone (c : Circuit) (support : QubitSet) : Circuit :=
  ⟨(Sweep.layers c.layers (.start c support)).1⟩

def ancestorWidth (c : Circuit) (support : QubitSet) : Nat :=
  (Sweep.layers c.layers (.start c support)).2.reached.size

end Circuit

end QubitReuse
