import TopDown.Production

namespace TopDown

inductive GrammarFault where
  | mixedEmpty (production : Production)
  | reserved (symbols : List Symbol)
  | bothKinds (symbols : List Symbol)
  | undeclared (symbol : Symbol) (production : Production)
  | repeated (first second : Production)
  | noStart (start : Symbol)
  deriving DecidableEq, Repr

namespace GrammarFault

def message : GrammarFault → String
  | mixedEmpty p =>
    "The production `" ++ p.text ++ "` mixes " ++ Symbol.empty ++ " with other symbols"
  | reserved symbols =>
    "Can't use " ++ " or ".intercalate symbols ++ " in grammars, " ++
      (if symbols.length = 1 then "it's" else "they're") ++ " reserved."
  | bothKinds symbols =>
    "Symbols cannot be both terminals and nonterminals: " ++ ", ".intercalate symbols
  | undeclared symbol p =>
    "The production `" ++ p.text ++ "` uses '" ++ symbol ++ "', which is not a declared " ++
      (if symbol = p.name then "nonterminal" else "terminal or nonterminal")
  | repeated first second =>
    "Found the production `" ++ second.text ++ "` more than once (at " ++
      toString first.index ++ " and " ++ toString second.index ++ ")"
  | noStart start => "There is no production for the start symbol '" ++ start ++ "'"

end GrammarFault

end TopDown
