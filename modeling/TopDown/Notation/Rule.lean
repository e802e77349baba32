import TopDown.Grammar.Fault

namespace TopDown.Notation

/-- Where a nonterminal comes from: it was defined under an identifier, or it was generated for a
repetition, with the number of that repetition. -/
inductive Origin where
  | defined (id : String)
  | generated (serial : Nat)
  deriving DecidableEq, Repr

structure Nonterminal where
  origin : Origin
  name : String
  deriving DecidableEq, Repr

structure Terminal where
  id : String
  name : String
  deriving DecidableEq, Repr

inductive Atom where
  | terminal (t : Terminal)
  | nonterminal (n : Nonterminal)
  deriving DecidableEq, Repr

/-- A place of definition is told by an identifier, not by a file and a line. -/
def Terminal.location (t : Terminal) : String := "terminal " ++ t.id

def Nonterminal.location (n : Nonterminal) : String :=
  match n.origin with
  | .defined id => "rule " ++ id
  | .generated _ => "generated"

def Atom.name : Atom → String
  | terminal t => t.name
  | nonterminal n => n.name

inductive NameClash where
  | rules (first second : Nonterminal)
  | terminals (first second : Terminal)
  | ruleAndTerminal (rule : Nonterminal) (terminal : Terminal)
  deriving DecidableEq, Repr

def NameClash.message : NameClash → String
  | rules first second =>
    "Found more than one rule named " ++ second.name ++ ":\n- " ++ first.location ++ "\n- " ++
      second.location
  | terminals first second =>
    "Found more than one terminal named " ++ second.name ++ ":\n- " ++ first.location ++ "\n- " ++
      second.location
  | ruleAndTerminal rule terminal =>
    "Found a terminal and a rule both named " ++ terminal.name ++ ":\n- The rule was defined at " ++
      rule.location ++ "\n- The terminal was defined at " ++ terminal.location

inductive RuleError where
  | unknownName (id : String)
  | noItems
  | shapeless
  | noBody
  | clash (cause : NameClash)
  | grammar (fault : GrammarFault)
  /-- Gathering has visited more nonterminals than there can be. -/
  | unsettled
  deriving DecidableEq, Repr

def RuleError.message : RuleError → String
  | unknownName id => "Nothing is named " ++ id
  | noItems => "A combination needs at least one rule"
  | shapeless => "A rule without a shape cannot be flattened"
  | noBody => "Only a nonterminal has a body"
  | clash cause => cause.message
  | grammar fault => fault.message
  | unsettled => "The rules do not settle"

inductive Rule where
  | atom (a : Atom)
  | choice (left right : Rule)
  | sequence (first second : Rule)
  | nothing
  | shapeless
  deriving DecidableEq, Repr

namespace Rule

/-- The alternatives of a choice are those of the left, then those of the right; the alternatives of
a sequence are all combinations, ordered by the first part. -/
def flatten : Rule → Except RuleError (List (List Atom))
  | atom a => .ok [[a]]
  | choice left right =>
    match left.flatten with
    | .error e => .error e
    | .ok ls => right.flatten.map (ls ++ ·)
  | sequence first second =>
    match first.flatten with
    | .error e => .error e
    | .ok fs => second.flatten.map fun ss => fs.flatMap fun f => ss.map (f ++ ·)
  | nothing => .ok [[]]
  | shapeless => .error .shapeless

def combine (op : Rule → Rule → Rule) : List Rule → Except RuleError Rule
  | [] => .error .noItems
  | first :: rest => .ok (rest.foldl op first)

def sequenceOf (items : List Rule) : Except RuleError Rule := combine sequence items

def choiceOf (items : List Rule) : Except RuleError Rule := combine choice items

end Rule

end TopDown.Notation
