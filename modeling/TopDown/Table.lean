import TopDown.Production
import TopDown.SymbolSet

namespace TopDown

/-- The filled cells of one nonterminal, in the order they were filled. -/
abbrev Row := List (Symbol × Production)

structure Table where
  start : Symbol
  terminals : SymbolSet
  rows : List (Symbol × Row)
  deriving DecidableEq

namespace Table

def isNonterminal (t : Table) (s : Symbol) : Bool := (t.rows.lookup s).isSome

def row (t : Table) (nonterminal : Symbol) : Except Failure Row :=
  match t.rows.lookup nonterminal with
  | some row => .ok row
  | none => .error (.unknownSymbol nonterminal)

def lookup (t : Table) (nonterminal token : Symbol) : Except Failure (Option Production) :=
  (t.row nonterminal).map fun row => row.lookup token

def tokens (row : Row) : SymbolSet := SymbolSet.ofList (row.map (·.1))

/-- What the input may go on with when a nonterminal is on top of the stack. -/
def expected (t : Table) (nonterminal : Symbol) : Except Failure (List Symbol) :=
  (t.row nonterminal).map fun row => (tokens row).toList

def productions (t : Table) : List Production := t.rows.flatMap fun row => row.2.map (·.2)

def longest (t : Table) : Nat := (t.productions.map (·.symbols.length)).foldl max 0

end Table

end TopDown
