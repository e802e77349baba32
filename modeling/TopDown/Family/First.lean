import TopDown.Family
import TopDown.Grammar

namespace TopDown.First

def sweepProduction (p : Production) (F : Family) : Except Failure (Family × Bool) :=
  match F.find p.name with
  | .error e => .error e
  | .ok old =>
    match F.leading p.symbols with
    | .error e => .error e
    | .ok more => .ok (F.enlarge p.name more, !more.subset old)

def sweepProductions : List Production → Family.Sweep
  | [], F => (F, .ok false)
  | p :: rest, F =>
    match sweepProduction p F with
    | .error e => (F, .error e)
    | .ok (G, grew) =>
      match sweepProductions rest G with
      | (H, outcome) => (H, outcome.map (grew || ·))

def sweep (g : Grammar) : Family.Sweep := sweepProductions g.productions

/-- Sweeps add only `ε` and members that are already in some set, so there are no more sweeps than
members missing. -/
def close (g : Grammar) (F : Family) : Except Failure Family.Settled :=
  F.settle (sweep g) (F.room (F.members.insert Symbol.empty) + 1)

def initial (g : Grammar) : Family :=
  ⟨(Symbol.empty, .singleton Symbol.empty) :: (Symbol.endMark, .singleton Symbol.endMark) ::
    (g.terminals.toList.map fun t => (t, .singleton t)) ++ g.nonterminals.toList.map fun n => (n, ∅)⟩

end TopDown.First
