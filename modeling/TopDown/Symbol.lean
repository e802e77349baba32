namespace TopDown

abbrev Symbol := String

namespace Symbol

def empty : Symbol := "ε"

def endMark : Symbol := "$"

def startsWith (lead s : Symbol) : Bool := lead.toList.isPrefixOf s.toList

/-- The marks are reserved, and so is every name with two leading underscores, except the names
that generated repetitions have. -/
def isReserved (s : Symbol) : Bool :=
  s == empty || s == endMark || (startsWith "__" s && !startsWith "__gen_" s)

theorem empty_ne_endMark : empty ≠ endMark := by decide

theorem isReserved_empty : isReserved empty = true := by decide

theorem isReserved_endMark : isReserved endMark = true := by decide

end Symbol

inductive SymbolKind where
  | terminal
  | nonterminal
  | empty
  | endMark
  deriving DecidableEq, Repr

/-- What stops a computation on symbols: a look-up that finds nothing, or a repetition that has not
settled within its bound. -/
inductive Failure where
  | unknownSymbol (symbol : Symbol)
  | unsettled
  deriving DecidableEq, Repr

end TopDown
