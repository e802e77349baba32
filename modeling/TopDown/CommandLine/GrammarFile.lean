import TopDown.Sample

namespace TopDown.CommandLine

open Notation

inductive GrammarSource where
  | declared (d : Declaration)
  | ruled (book : Rulebook) (start : Nonterminal)

def GrammarSource.grammar : GrammarSource → Except RuleError Grammar
  | declared d =>
    match d.grammar with
    | .error fault => .error (.grammar fault)
    | .ok g => .ok g
  | ruled book start => (book.grammar start).2

inductive Value where
  | grammar (source : GrammarSource)
  | other
  /-- No value: the name is as good as unbound. -/
  | absent

structure GrammarFile where
  name : String
  members : List (String × Value)

inductive Loaded where
  | grammar (g : Grammar)
  | other
  | absent

namespace GrammarFile

/-- A grammar file is source text. Compiled modules, whose names end otherwise, are left out. -/
def ending : String := ".py"

def isGrammarFile (f : GrammarFile) : Bool := ending.toList.isSuffixOf f.name.toList

/-- Makes the grammars in their order; the first error ends loading. The grammars made until then
are answered in any case. -/
def load : List (String × Value) → List Grammar × Except RuleError (List (String × Loaded))
  | [] => ([], .ok [])
  | (name, .other) :: rest =>
    match load rest with
    | (made, members) => (made, members.map ((name, .other) :: ·))
  | (name, .absent) :: rest =>
    match load rest with
    | (made, members) => (made, members.map ((name, .absent) :: ·))
  | (name, .grammar source) :: rest =>
    match source.grammar with
    | .error e => ([], .error e)
    | .ok g =>
      match load rest with
      | (made, members) => (g :: made, members.map ((name, .grammar g) :: ·))

def lookup (members : List (String × Loaded)) (name : String) : Loaded :=
  match members.reverse.lookup name with
  | some value => value
  | none => .absent

def grammarNames (members : List (String × Loaded)) : List String :=
  (SymbolSet.ofList (members.map (·.1))).toList.filter fun name =>
    match lookup members name with
    | .grammar _ => true
    | _ => false

def plain (names : List String) : List (String × Value) := names.map fun name => (name, .other)

def predefined : List (String × Value) := plain ["Grammar"]

def ruleWords : List (String × Value) :=
  plain ["EMPTY", "END", "Nothing", "Terminal", "alt", "one_or_more", "opt", "rule", "seq",
    "zero_or_more"]

def textbook : GrammarFile where
  name := "textbook.py"
  members := predefined ++ plain ["EMPTY"] ++
    [("TextbookGrammar", .grammar (.declared Sample.textbook))]

def ofRules (terminals : List Terminal) (rules : List Definition) : List (String × Value) :=
  plain (rules.map (·.id) ++ terminals.map (·.id))

def expression : GrammarFile where
  name := "expression.py"
  members := predefined ++ ruleWords ++
    ofRules Sample.expressionTerminals Sample.expressionRules ++
    [("ExpressionGrammar", .grammar (.ruled Sample.expression Sample.expressionStart))]

def statements : GrammarFile where
  name := "statements.py"
  members := predefined ++ ruleWords ++
    ofRules Sample.statementTerminals Sample.statementRules ++
    [("StatementGrammar", .grammar (.ruled Sample.statements Sample.statementsStart))]

end GrammarFile

end TopDown.CommandLine
