import TopDown.CommandLine.GrammarFile

namespace TopDown.CommandLine.GrammarFile

/-- The words of a line; the second argument holds the current word, last character first. -/
def wordsFrom : List Char → List Char → List String
  | [], word => if word.isEmpty then [] else [String.ofList word.reverse]
  | c :: rest, word =>
    if c = ' ' ∨ c = '\t' ∨ c = '\r' then
      if word.isEmpty then wordsFrom rest []
      else String.ofList word.reverse :: wordsFrom rest []
    else wordsFrom rest (c :: word)

def words (line : List Char) : List String := wordsFrom line []

def linesFrom : List Char → List Char → List (List Char)
  | [], line => [line.reverse]
  | c :: rest, line => if c = '\n' then line.reverse :: linesFrom rest [] else linesFrom rest (c :: line)

structure Reading where
  name : String
  declaration : Declaration

def Reading.member (r : Reading) : String × Value := (r.name, .grammar (.declared r.declaration))

def Reading.addRule (r : Reading) (name : Symbol) (symbols : List Symbol) : Reading :=
  { r with declaration.rules := r.declaration.rules ++ [(name, symbols)] }

def Reading.addTerminals (r : Reading) (symbols : List Symbol) : Reading :=
  { r with declaration.terminals := some (r.declaration.terminals.getD [] ++ symbols) }

def Reading.addNonterminals (r : Reading) (symbols : List Symbol) : Reading :=
  { r with declaration.nonterminals := some (r.declaration.nonterminals.getD [] ++ symbols) }

def readLines : Nat → Option Reading → List (List String) → Except Nat (List (String × Value))
  | _, none, [] => .ok []
  | _, some r, [] => .ok [r.member]
  | count, current, line :: rest =>
    match line, current with
    | [], _ => readLines (count + 1) current rest
    | [name, "=", start], none => readLines (count + 1) (some ⟨name, ⟨start, [], none, none⟩⟩) rest
    | [name, "=", start], some r =>
      (readLines (count + 1) (some ⟨name, ⟨start, [], none, none⟩⟩) rest).map (r.member :: ·)
    | name :: "->" :: symbols, some r => readLines (count + 1) (some (r.addRule name symbols)) rest
    | "terminals" :: symbols, some r => readLines (count + 1) (some (r.addTerminals symbols)) rest
    | "nonterminals" :: symbols, some r =>
      readLines (count + 1) (some (r.addNonterminals symbols)) rest
    | word :: _, _ =>
      if word.toList.head? = some '#' then readLines (count + 1) current rest
      else .error (count + 1)

/-- The members of a file. A line `Name = start` begins a grammar with its start symbol; the lines
after it give its productions, `name -> symbols`, and what it declares, `terminals symbols` and
`nonterminals symbols`. Empty lines and lines that begin with a hash sign are passed over. -/
def read (text : String) : Except Nat (List (String × Value)) :=
  (readLines 0 none ((linesFrom text.toList []).map words)).map (predefined ++ ·)

end TopDown.CommandLine.GrammarFile
