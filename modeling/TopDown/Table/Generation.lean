import TopDown.Analysis
import TopDown.Table.Draft

namespace TopDown

namespace Analysis

def fill (a : Analysis) : List Production → Draft → Except Failure Draft
  | [], d => .ok d
  | p :: rest, d =>
    match a.predict p with
    | .error e => .error e
    | .ok tokens =>
      match d.enterEach p tokens.toList with
      | .error e => .error e
      | .ok d => a.fill rest d

def draft (a : Analysis) : Except Failure Draft :=
  a.fill a.grammar.productions (Draft.ofGrammar a.grammar)

def table (a : Analysis) : Except TableError Table :=
  match a.leftRecursion with
  | .error e => .error (.failure e)
  | .ok (some cycle) => .error (.leftRecursion cycle)
  | .ok none =>
    match a.draft with
    | .error e => .error (.failure e)
    | .ok d =>
      match d.publish with
      | .error found => .error (.conflicts found)
      | .ok published => .ok (published.read d)

end Analysis

def Grammar.table (g : Grammar) : Except TableError Table :=
  match g.analysis with
  | .error e => .error (.failure e)
  | .ok a => a.table

end TopDown
