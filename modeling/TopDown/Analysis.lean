import TopDown.Family.First
import TopDown.Family.Follow
import TopDown.Digraph

namespace TopDown

structure Analysis where
  grammar : Grammar
  first : Family.Settled
  follow : Family.Settled

namespace Grammar

def analysis (g : Grammar) : Except Failure Analysis :=
  match First.close g (First.initial g) with
  | .error e => .error e
  | .ok first =>
    match Follow.close g first.family (Follow.initial g) with
    | .error e => .error e
    | .ok follow => .ok ⟨g, first, follow⟩

end Grammar

namespace Analysis

def firsts (a : Analysis) : Family := a.first.family

/-- Only a terminal itself can stand where it stands; all other symbols are as the sweeps left them. -/
def follows (a : Analysis) : Family :=
  ⟨a.follow.family.entries ++ a.grammar.terminals.toList.map fun t => (t, .singleton t)⟩

def isNullable (a : Analysis) (s : Symbol) : Except Failure Bool :=
  (a.firsts.find s).map fun first => decide (Symbol.empty ∈ first)

def nullable (a : Analysis) : List Symbol :=
  a.grammar.nonterminalList.filter fun s => (a.isNullable s).toOption == some true

/-- The tokens that select a production: those its right side can begin with and, if the right side
can be empty, those that can follow its name. -/
def predict (a : Analysis) (p : Production) : Except Failure SymbolSet :=
  match a.firsts.leading p.symbols with
  | .error e => .error e
  | .ok first =>
    if Symbol.empty ∈ first then
      (a.follows.find p.name).map fun follow => (first.erase Symbol.empty).union follow
    else .ok first

/-- The nonterminals that a sequence can begin with, when what stands before them is empty. -/
def corners (a : Analysis) : List Symbol → Except Failure (List Symbol)
  | [] => .ok []
  | s :: rest =>
    if a.grammar.isNonterminal s then
      match a.isNullable s with
      | .error e => .error e
      | .ok true => (a.corners rest).map (s :: ·)
      | .ok false => .ok [s]
    else .ok []

def cornersOfAll (a : Analysis) : List Production → Except Failure (List Symbol)
  | [] => .ok []
  | p :: rest =>
    match a.corners p.symbols with
    | .error e => .error e
    | .ok symbols => (a.cornersOfAll rest).map (symbols ++ ·)

def cornerRows (a : Analysis) : List Symbol → Except Failure (List (Symbol × List Symbol))
  | [] => .ok []
  | s :: rest =>
    match a.cornersOfAll (a.grammar.productionsOf s) with
    | .error e => .error e
    | .ok symbols => (a.cornerRows rest).map ((s, symbols.eraseDups) :: ·)

/-- Each nonterminal with the nonterminals that can be the first thing it becomes. -/
def leftGraph (a : Analysis) : Except Failure Digraph :=
  (a.cornerRows a.grammar.nonterminalList).map Digraph.mk

def leftRecursion (a : Analysis) : Except Failure (Option (List Symbol)) :=
  match a.leftGraph with
  | .error e => .error e
  | .ok graph => graph.findCycle

end Analysis

end TopDown
