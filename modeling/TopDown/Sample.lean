import TopDown.Notation.Gather
import TopDown.Table

namespace TopDown.Sample

open Notation

/-- Nested pairs around a chain. -/
def textbook : Declaration where
  start := "S"
  rules :=
    [("S", ["a", "A", "B", "b"]), ("A", ["a", "A", "c"]), ("A", [Symbol.empty]),
      ("B", ["b", "B"]), ("B", ["c"])]
  terminals := none
  nonterminals := none

def textbookGrammar : Grammar :=
  ⟨textbook.start, textbook.productions, textbook.terminalSet, textbook.nonterminalSet,
    textbook.wellFormed_of_fault (by decide +kernel)⟩

def textbookTable : Table where
  start := "S"
  terminals := textbook.terminalSet
  rows :=
    [("S", [("a", ⟨"S", ["a", "A", "B", "b"], 0⟩)]),
      ("A", [("a", ⟨"A", ["a", "A", "c"], 1⟩), ("b", ⟨"A", [Symbol.empty], 2⟩),
        ("c", ⟨"A", [Symbol.empty], 2⟩)]),
      ("B", [("b", ⟨"B", ["b", "B"], 3⟩), ("c", ⟨"B", ["c"], 4⟩)])]

def named (ids : List String) : List Expr := ids.map .name

def expressionTerminals : List Terminal :=
  [⟨"PLUS", "+"⟩, ⟨"STAR", "*"⟩, ⟨"LPAREN", "("⟩, ⟨"RPAREN", ")"⟩, ⟨"ID", "id"⟩]

def expressionRules : List Definition :=
  [⟨"expression", none, .apply .seq (named ["term", "expression_tail"])⟩,
    ⟨"expression_tail", none, .apply .opt (named ["PLUS", "term", "expression_tail"])⟩,
    ⟨"term", none, .apply .seq (named ["factor", "term_tail"])⟩,
    ⟨"term_tail", none, .apply .opt (named ["STAR", "factor", "term_tail"])⟩,
    ⟨"factor", none,
      .either (.apply .seq (named ["LPAREN", "expression", "RPAREN"])) (.name "ID")⟩]

def expression : Rulebook := Rulebook.ofDefinitions expressionTerminals expressionRules

def expressionStart : Nonterminal := ⟨.defined "expression", "expression"⟩

def statementTerminals : List Terminal :=
  [⟨"LET", "let"⟩, ⟨"PRINT", "print"⟩, ⟨"EQUAL", "="⟩, ⟨"COMMA", ","⟩, ⟨"SEMICOLON", ";"⟩,
    ⟨"NAME", "NAME"⟩, ⟨"NUMBER", "NUMBER"⟩]

def statementRules : List Definition :=
  [⟨"program", none, .apply .plus (named ["statement"])⟩,
    ⟨"statement", none, .either (.name "let_statement") (.name "print_statement")⟩,
    ⟨"let_statement", none, .apply .seq (named ["LET", "NAME", "EQUAL", "value", "SEMICOLON"])⟩,
    ⟨"print_statement", none, .apply .seq (named ["PRINT", "print_arguments", "SEMICOLON"])⟩,
    ⟨"print_arguments", none,
      .apply .opt [.name "value", .apply .star (named ["COMMA", "value"])]⟩,
    ⟨"value", none, .either (.name "NAME") (.name "NUMBER")⟩]

/-- One or more statements, each of which binds a name or prints values. -/
def statements : Rulebook := Rulebook.ofDefinitions statementTerminals statementRules

def statementsStart : Nonterminal := ⟨.defined "program", "program"⟩

end TopDown.Sample
