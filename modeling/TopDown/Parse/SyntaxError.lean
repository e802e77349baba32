import TopDown.Symbol
import TopDown.Text

namespace TopDown

inductive SyntaxCause where
  | unknownToken
  | noAlternative (nonterminal : Symbol)
  | mismatch (due : Symbol)
  | surplus
  deriving DecidableEq, Repr

/-- The position counts tokens, the token there is `$` at the end of the input, the stack is written
with its top last, and the expected tokens are those that could have stood there. -/
structure SyntaxError where
  cause : SyntaxCause
  position : Nat
  token : Symbol
  stack : List Symbol
  expected : List Symbol
  deriving DecidableEq, Repr

namespace SyntaxError

def tokenText (token : Symbol) : String :=
  if token = Symbol.endMark then "end of input" else token

def message (e : SyntaxError) : String :=
  "Syntax Error: " ++
    match e.cause with
    | .unknownToken => "Unknown token " ++ Text.quoted e.token
    | .noAlternative nonterminal =>
      "Unexpected " ++ tokenText e.token ++ " while parsing " ++ nonterminal
    | .mismatch due => "Unexpected " ++ tokenText e.token ++ ", expected " ++ due
    | .surplus => "Unexpected " ++ tokenText e.token ++ ", expected end of input"

def text (e : SyntaxError) : String := toString e.position ++ ": " ++ e.message

end SyntaxError

end TopDown
