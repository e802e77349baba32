import TopDown.Notation.Rulebook
import TopDown.Grammar.Declaration

namespace TopDown.Notation

/-- The nonterminals in the order they are visited, with their alternatives, and the terminals in the
order they appear. -/
structure Gathered where
  rules : List (Nonterminal × List (List Atom))
  terminals : List Terminal
  deriving DecidableEq, Repr

namespace Gathered

def nonterminals (g : Gathered) : List Nonterminal := g.rules.map (·.1)

def addTerminal (g : Gathered) (t : Terminal) : Gathered :=
  if t ∈ g.terminals then g else { g with terminals := g.terminals ++ [t] }

def add (g : Gathered) (n : Nonterminal) (alternatives : List (List Atom)) : Gathered :=
  alternatives.flatten.foldl (fun g a =>
    match a with
    | .terminal t => g.addTerminal t
    | .nonterminal _ => g) { g with rules := g.rules ++ [(n, alternatives)] }

def ruleClash : List Nonterminal → List Nonterminal → Option NameClash
  | _, [] => none
  | earlier, n :: rest =>
    match earlier.find? fun m => m.name == n.name with
    | some m => some (.rules m n)
    | none => ruleClash (earlier ++ [n]) rest

def terminalClash (rules : List Nonterminal) : List Terminal → List Terminal → Option NameClash
  | _, [] => none
  | earlier, t :: rest =>
    match earlier.find? fun u => u.name == t.name with
    | some u => some (.terminals u t)
    | none =>
      match rules.find? fun n => n.name == t.name with
      | some n => some (.ruleAndTerminal n t)
      | none => terminalClash rules (earlier ++ [t]) rest

def clash (g : Gathered) : Option NameClash :=
  (ruleClash [] g.nonterminals).or (terminalClash g.nonterminals [] g.terminals)

def declaration (g : Gathered) (start : Nonterminal) : Declaration where
  start := start.name
  rules := g.rules.flatMap fun rule => rule.2.map fun atoms => (rule.1.name, atoms.map (·.name))
  terminals := some (g.terminals.map (·.name))
  nonterminals := some (g.nonterminals.map (·.name))

end Gathered

namespace Rulebook

def nonterminalsIn (alternatives : List (List Atom)) : List Nonterminal :=
  alternatives.flatten.filterMap fun a =>
    match a with
    | .terminal _ => none
    | .nonterminal n => some n

/-- Visits pending nonterminals, the one that was found last first, until none is left. -/
def visit : Nat → List Nonterminal → Gathered → Rulebook → Rulebook × Except RuleError Gathered
  | 0, _, _, b => (b, .error .unsettled)
  | bound + 1, pending, g, b =>
    match pending.dropWhile (· ∈ g.nonterminals) with
    | [] => (b, .ok g)
    | n :: rest =>
      match b.body n with
      | (b, .error e) => (b, .error e)
      | (b, .ok alternatives) =>
        let found := g.add n alternatives
        let fresh := (nonterminalsIn alternatives).filter (· ∉ found.nonterminals)
        visit bound (fresh.reverse ++ rest) found b

/-- There are no more nonterminals than the defined ones, the repetitions already made, and those
that the definitions can still make when each is evaluated once. -/
def visitBound (b : Rulebook) : Nat :=
  b.definitions.length + b.naming.repeated.length +
    Expr.repetitionsEach (b.definitions.map (·.2)) + 1

def gather (b : Rulebook) (start : Nonterminal) : Rulebook × Except RuleError Gathered :=
  match b.visit b.visitBound [start] ⟨[], []⟩ with
  | (b, .error e) => (b, .error e)
  | (b, .ok g) =>
    match g.clash with
    | some cause => (b, .error (.clash cause))
    | none => (b, .ok g)

def grammar (b : Rulebook) (start : Nonterminal) : Rulebook × Except RuleError Grammar :=
  match b.gather start with
  | (b, .error e) => (b, .error e)
  | (b, .ok g) =>
    match (g.declaration start).grammar with
    | .error fault => (b, .error (.grammar fault))
    | .ok grammar => (b, .ok grammar)

end Rulebook

end TopDown.Notation
