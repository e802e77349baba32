import TopDown.CommandLine.Word

namespace TopDown.CommandLine

structure Arguments where
  path : String
  tokens : List String
  member : Option String
  chars : Bool
  table : Bool
  json : Bool
  verbose : Bool
  deriving DecidableEq, Repr

inductive Refusal where
  | help
  | usage
  deriving DecidableEq, Repr

structure Reading where
  positional : List String
  /-- An option came after the path, and so there are no more tokens. -/
  closed : Bool
  surplus : Bool
  member : Option String
  chars : Bool
  table : Bool
  json : Bool
  verbose : Bool
  deriving DecidableEq, Repr

namespace Reading

def start : Reading := ⟨[], false, false, none, false, false, false, false⟩

def argument (r : Reading) (word : String) : Reading :=
  if r.closed then { r with surplus := true }
  else { r with positional := r.positional ++ [word] }

def close (r : Reading) : Reading := { r with closed := !r.positional.isEmpty }

/-- After two dashes no word is an option. Among the tokens the first two dashes are dropped. -/
def finish (r : Reading) (rest : List String) : Reading :=
  if r.closed then { r with surplus := true }
  else match r.positional, rest with
    | [], [] => r
    | [], path :: tokens => { r with positional := path :: tokens.erase "--" }
    | [path], tokens => { r with positional := path :: tokens.erase "--" }
    | words, tokens => { r with positional := words ++ tokens }

def set (r : Reading) : Setting → Option String → Except Refusal Reading
  | .help, none => .error .help
  | .member, some name => .ok { r with member := some name }
  | .chars, none => .ok { r with chars := true }
  | .table, none => .ok { r with table := true }
  | .json, none => .ok { r with json := true }
  | .verbose, none => .ok { r with verbose := true }
  | _, _ => .error .usage

/-- Letters after `-h` are options of one letter; the first one that is not `h` is surplus. -/
def askHelp (more : List Char) : Refusal :=
  match more.dropWhile (· = 'h') with
  | '=' :: _ => .usage
  | '-' :: _ => .usage
  | _ => .help

def readAll : Reading → List String → Except Refusal Reading
  | r, [] => .ok r
  | r, word :: rest =>
    if word = "--" then .ok (r.finish rest)
    else match Word.of word with
      | .argument => (r.argument word).readAll rest
      | .option .member none =>
        match rest with
        | [] => .error .usage
        | name :: rest =>
          if Word.of name = .argument then { r.close with member := some name }.readAll rest
          else .error .usage
      | .option setting value =>
        match r.close.set setting value with
        | .error refusal => .error refusal
        | .ok r => r.readAll rest
      | .help more => .error (askHelp more)
      | .unknown => { r.close with surplus := true }.readAll rest
      | .ambiguous => .error .usage

end Reading

namespace Arguments

/-- Ambiguous words are found before anything is read, and words without a place after all is. -/
def read (args : List String) : Except Refusal Arguments :=
  if ∃ word ∈ args.takeWhile (· ≠ "--"), Word.of word = .ambiguous then .error .usage
  else match Reading.start.readAll args with
    | .error refusal => .error refusal
    | .ok r =>
      match r.surplus, r.positional with
      | false, path :: tokens =>
        .ok ⟨path, tokens, r.member, r.chars, r.table, r.json, r.verbose⟩
      | _, _ => .error .usage

def ofList? (args : List String) : Option Arguments := (read args).toOption

def input (a : Arguments) : List String :=
  if a.chars then a.tokens.flatMap fun token => token.toList.map fun c => String.ofList [c]
  else a.tokens

end Arguments

end TopDown.CommandLine
