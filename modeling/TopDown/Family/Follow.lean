import TopDown.Family
import TopDown.Grammar

namespace TopDown.Follow

/-- Goes through a right side from its end. The trailer holds what can come after the current place;
it starts as what follows the production's name, and it is added to each nonterminal that is passed. -/
def sweepSymbols (g : Grammar) (firsts : Family) :
    List Symbol → SymbolSet → Family → Family × Except Failure (SymbolSet × Bool)
  | [], trailer, F => (F, .ok (trailer, false))
  | s :: rest, trailer, F =>
    match sweepSymbols g firsts rest trailer F with
    | (F, .error e) => (F, .error e)
    | (F, .ok (trailer, grew)) =>
      if s = Symbol.empty then (F, .ok (trailer, grew))
      else if g.isNonterminal s = false then (F, .ok (.singleton s, grew))
      else match F.find s with
        | .error e => (F, .error e)
        | .ok old =>
          let G := F.enlarge s trailer
          match firsts.find s with
          | .error e => (G, .error e)
          | .ok first =>
            let passed :=
              if Symbol.empty ∈ first then trailer.union (first.erase Symbol.empty) else first
            (G, .ok (passed, !trailer.subset old || grew))

def sweepProduction (g : Grammar) (firsts : Family) (p : Production) : Family.Sweep := fun F =>
  match F.find p.name with
  | .error e => (F, .error e)
  | .ok trailer =>
    match sweepSymbols g firsts p.symbols trailer F with
    | (G, outcome) => (G, outcome.map (·.2))

def sweepProductions (g : Grammar) (firsts : Family) : List Production → Family.Sweep
  | [], F => (F, .ok false)
  | p :: rest, F =>
    match sweepProduction g firsts p F with
    | (G, .error e) => (G, .error e)
    | (G, .ok grew) =>
      match sweepProductions g firsts rest G with
      | (H, outcome) => (H, outcome.map (grew || ·))

def sweep (g : Grammar) (firsts : Family) : Family.Sweep := sweepProductions g firsts g.productions

def close (g : Grammar) (firsts F : Family) : Except Failure Family.Settled :=
  F.settle (sweep g firsts) (F.room ((F.members.union firsts.members).union g.terminals) + 1)

def initial (g : Grammar) : Family :=
  ⟨g.nonterminals.toList.map fun n => (n, if n = g.start then .singleton Symbol.endMark else ∅)⟩

end TopDown.Follow
