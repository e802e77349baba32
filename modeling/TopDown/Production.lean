import TopDown.Symbol

namespace TopDown

/-- The index is part of a production: the same rule at another place is another production. -/
structure Production where
  name : Symbol
  symbols : List Symbol
  index : Int
  deriving DecidableEq, Repr

namespace Production

def isEmpty (p : Production) : Bool := p.symbols == [Symbol.empty]

def text (p : Production) : String := p.name ++ " -> " ++ " ".intercalate p.symbols

def listing (p : Production) : String := toString p.index ++ ": " ++ p.text

def sameRule (p q : Production) : Bool := p.name == q.name && p.symbols == q.symbols

theorem sameRule_iff {p q : Production} :
    p.sameRule q = true ↔ p.name = q.name ∧ p.symbols = q.symbols := by
  simp [sameRule]

end Production

end TopDown
