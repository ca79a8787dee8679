import BinaryCsp.Config
import BinaryCsp.Chance.Stream
import BinaryCsp.Store

/-!
# Breaking ties

Chooses among variables that a heuristic scores equally. The random stream moves only on a real
tie, so that a choice without an alternative leaves later choices as they are.
-/

namespace BinaryCsp

open Chance

inductive TieBreaker where
  | lowest
  | seeded (stream : Stream)
deriving DecidableEq

namespace TieBreaker

def ofPolicy : TieBreak → TieBreaker
  | .lowest => .lowest
  | .seeded seed => .seeded (.ofSeed seed)

/-- Picks one of the candidates, which are in ascending order. -/
def pick (t : TieBreaker) (candidates : List VarId) : Option VarId × TieBreaker :=
  match t, candidates with
  | .seeded stream, first :: second :: rest =>
    let candidates := first :: second :: rest
    let (index, stream) := stream.below candidates.length
    (candidates[index]?, .seeded stream)
  | t, candidates => (candidates.head?, t)

end TieBreaker

end BinaryCsp
