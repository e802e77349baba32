import TopDown.Production
import TopDown.SymbolSet

namespace TopDown

/-- What a start symbol, a list of productions and two sets of symbols must satisfy together. -/
structure WellFormed (start : Symbol) (productions : List Production)
    (terminals nonterminals : SymbolSet) : Prop where
  index_eq : ∀ (i : Nat) (bound : i < productions.length), productions[i].index = (i : Int)
  symbols_ne_nil : ∀ p ∈ productions, p.symbols ≠ []
  unmixed : ∀ p ∈ productions, Symbol.empty ∈ p.symbols → p.symbols = [Symbol.empty]
  terminal_unreserved : ∀ s ∈ terminals, Symbol.isReserved s = false
  nonterminal_unreserved : ∀ s ∈ nonterminals, Symbol.isReserved s = false
  disjoint : ∀ s ∈ terminals, ¬ s ∈ nonterminals
  name_declared : ∀ p ∈ productions, p.name ∈ nonterminals
  symbol_declared : ∀ p ∈ productions, ∀ s ∈ p.symbols,
    s = Symbol.empty ∨ s ∈ terminals ∨ s ∈ nonterminals
  distinct : productions.Pairwise fun p q => p.sameRule q = false
  start_defined : ∃ p ∈ productions, p.name = start

structure Grammar where
  start : Symbol
  productions : List Production
  terminals : SymbolSet
  nonterminals : SymbolSet
  wellFormed : WellFormed start productions terminals nonterminals

namespace Grammar

def kind? (g : Grammar) (s : Symbol) : Option SymbolKind :=
  if s ∈ g.nonterminals then some .nonterminal
  else if s ∈ g.terminals then some .terminal
  else if s = Symbol.endMark then some .endMark
  else if s = Symbol.empty then some .empty
  else none

def isTerminal (g : Grammar) (s : Symbol) : Bool := s ∈ g.terminals

def isNonterminal (g : Grammar) (s : Symbol) : Bool := s ∈ g.nonterminals

def productionsOf (g : Grammar) (name : Symbol) : List Production :=
  g.productions.filter (·.name == name)

def alternatives? (g : Grammar) (name : Symbol) : Option (List Production) :=
  if name ∈ g.nonterminals then some (g.productionsOf name) else none

/-- The start symbol, then the other names on the left as they appear, then the nonterminals that
are only declared. -/
def nonterminalList (g : Grammar) : List Symbol :=
  let written := (g.start :: g.productions.map (·.name)).eraseDups
  written ++ (g.nonterminals.filter (!written.contains ·)).toList

def terminalList (g : Grammar) : List Symbol :=
  let written := ((g.productions.flatMap (·.symbols)).filter (g.isTerminal ·)).eraseDups
  written ++ (g.terminals.filter (!written.contains ·)).toList

def barren (g : Grammar) : List Symbol :=
  (g.nonterminals.filter fun s => (g.productionsOf s).isEmpty).toList

def format (g : Grammar) : String := "\n".intercalate (g.productions.map (·.listing))

def summary (g : Grammar) : String :=
  "<Grammar start=" ++ g.start ++ " productions=" ++ toString g.productions.length ++ ">"

end Grammar

end TopDown
