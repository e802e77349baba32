import TopDown.Production

namespace TopDown

structure Conflict where
  nonterminal : Symbol
  terminal : Symbol
  first : Production
  second : Production
  deriving DecidableEq, Repr

def Conflict.text (c : Conflict) : String :=
  "\n".intercalate
    ["When expanding '" ++ c.nonterminal ++ "' and we see '" ++ c.terminal ++
      "' we don't know whether to use:",
    "- " ++ c.first.text,
    "- " ++ c.second.text]

inductive TableError where
  /-- The nonterminals of a cycle, the first one again at its end. -/
  | leftRecursion (cycle : List Symbol)
  | conflicts (found : List Conflict)
  | failure (cause : Failure)
  deriving DecidableEq, Repr

def TableError.message : TableError → String
  | leftRecursion cycle => "The grammar is left-recursive: " ++ " -> ".intercalate cycle
  | conflicts found =>
    "The grammar is not LL(1), " ++ toString found.length ++ " conflicts:\n\n" ++
      "\n\n".intercalate (found.map (·.text))
  | failure (.unknownSymbol symbol) => "Unknown symbol '" ++ symbol ++ "'"
  | failure .unsettled => "The sets of the grammar do not settle"

end TopDown
