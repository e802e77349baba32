import TopDown.Table.Generation
import TopDown.Parse.Machine

namespace TopDown

inductive Event where
  | barren (name : Symbol)
  | firstSettled (sweeps : Nat)
  | followSettled (sweeps : Nat)
  | predicted (production : Production) (tokens : List Symbol)
  | acted (record : ActionRecord)
  deriving DecidableEq, Repr

inductive Level where
  | debug
  | info
  | warning
  deriving DecidableEq, Repr

namespace Level

def name : Level → String
  | debug => "DEBUG"
  | info => "INFO"
  | warning => "WARNING"

def rank : Level → Nat
  | debug => 0
  | info => 1
  | warning => 2

end Level

namespace Event

def level : Event → Level
  | barren _ => .warning
  | firstSettled _ => .debug
  | followSettled _ => .debug
  | predicted _ _ => .debug
  | acted _ => .info

def channel : Event → String
  | acted _ => "llparse.action"
  | _ => "llparse.generator"

def message : Event → String
  | barren name => "Nonterminal " ++ name ++ " has no productions and cannot match"
  | firstSettled sweeps => "FIRST converged after " ++ toString sweeps ++ " passes"
  | followSettled sweeps => "FOLLOW converged after " ++ toString sweeps ++ " passes"
  | predicted p tokens => p.text ++ ": " ++ " ".intercalate tokens
  | acted record => record.text

def select (least : Level) (events : List Event) : List Event :=
  events.filter fun e => least.rank ≤ e.level.rank

end Event

def Grammar.events (g : Grammar) : List Event := g.barren.map .barren

def Analysis.events (a : Analysis) : List Event :=
  [.firstSettled a.first.sweeps, .followSettled a.follow.sweeps]

/-- Predict sets are reported while a table is filled, which a left-recursive grammar never is. -/
def Analysis.tableEvents (a : Analysis) : List Event :=
  match a.leftRecursion with
  | .ok none =>
    a.grammar.productions.filterMap fun p =>
      (a.predict p).toOption.map fun tokens => .predicted p tokens.toList
  | _ => []

def Grammar.tableEvents (g : Grammar) : List Event :=
  match g.analysis with
  | .error _ => []
  | .ok a => a.events ++ a.tableEvents

def Table.Run.events (r : Table.Run) : List Event := r.records.map .acted

end TopDown
