import TopDown.Table
import TopDown.Parse.Action
import TopDown.Parse.Sketch
import TopDown.Parse.SyntaxError

namespace TopDown

/-- A run that cannot go on although nothing is wrong with the input. -/
inductive Fault where
  | pastEnd
  | noNode
  | strayNode
  | noTree
  | endless
  deriving DecidableEq, Repr

inductive Outcome where
  | accepted (tree : Tree)
  | rejected (error : SyntaxError)
  | broken (fault : Fault)

/-- What is due, top of the stack first; what is still to be read, the end mark last; how many tokens
have been read; and the tree as far as it is drawn. -/
structure MachineState where
  stack : List Symbol
  input : List Symbol
  position : Nat
  sketch : Sketch

inductive Step where
  | next (record : ActionRecord) (state : MachineState)
  | stop (outcome : Outcome)

namespace Table

def initialState (t : Table) (tokens : List Symbol) : MachineState :=
  ⟨[t.start], tokens ++ [Symbol.endMark], 0, Sketch.ofRoot t.start⟩

/-- What to do when a symbol is on top of the stack and a token is next: an action, or the cause of an
error with the tokens that are expected. -/
def choose (t : Table) (top token : Symbol) : Except (SyntaxCause × List Symbol) Action :=
  if top = Symbol.empty then .ok .skip
  else if top = token then .ok .consume
  else match t.rows.lookup top with
    | none => .error (.mismatch top, [top])
    | some row =>
      match row.lookup token with
      | some p => .ok (.expand p)
      | none => .error (.noAlternative top, (tokens row).toList)

def advance (s : MachineState) (below unread : List Symbol) : Action → Option MachineState
  | .skip =>
    (s.sketch.complete (s.position, s.position)).map fun sketch =>
      { s with stack := below, sketch := sketch }
  | .consume =>
    (s.sketch.complete (s.position, s.position + 1)).map fun sketch =>
      ⟨below, unread, s.position + 1, sketch⟩
  | .expand p => some { s with stack := p.symbols ++ below, sketch := s.sketch.extend p.symbols }

def step (t : Table) (s : MachineState) : Step :=
  match s.input with
  | [] => .stop (.broken .pastEnd)
  | token :: unread =>
    match s.stack with
    | [] =>
      if token = Symbol.endMark then
        match s.sketch.finish with
        | some tree => .stop (.accepted tree)
        | none => .stop (.broken .noTree)
      else .stop (.rejected ⟨.surplus, s.position, token, [], [Symbol.endMark]⟩)
    | top :: below =>
      match s.sketch.current with
      | none => .stop (.broken .noNode)
      | some value =>
        if value ≠ top then .stop (.broken .strayNode)
        else match t.choose top token with
          | .error (cause, expected) =>
            .stop (.rejected ⟨cause, s.position, token, s.stack.reverse, expected⟩)
          | .ok action =>
            match advance s below unread action with
            | none => .stop (.broken .noNode)
            | some state => .next ⟨s.stack, token, action⟩ state

structure Run where
  records : List ActionRecord
  outcome : Outcome

def runFrom (t : Table) : Nat → MachineState → Run
  | 0, _ => ⟨[], .broken .endless⟩
  | bound + 1, s =>
    match t.step s with
    | .stop outcome => ⟨[], outcome⟩
    | .next record state =>
      let run := t.runFrom bound state
      ⟨record :: run.records, run.outcome⟩

/-- No run that ends has more steps. While one token is next, each expansion on the way down to a
symbol is of another nonterminal, so at most as many nonterminals as there are rows stand above a
symbol that comes to nothing, and as many above one that takes part in the next token. -/
def stepBound (t : Table) (tokens : List Symbol) : Nat :=
  (tokens.length + 2) * t.rows.length * Nat.pow (t.longest + 1) (t.rows.length + 1) + 2

def firstUnknown (t : Table) : Nat → List Symbol → Option (Nat × Symbol)
  | _, [] => none
  | position, token :: rest =>
    if token ∈ t.terminals then t.firstUnknown (position + 1) rest else some (position, token)

def run (t : Table) (tokens : List Symbol) : Run :=
  match t.firstUnknown 0 tokens with
  | some (position, token) => ⟨[], .rejected ⟨.unknownToken, position, token, [t.start], []⟩⟩
  | none => t.runFrom (t.stepBound tokens) (t.initialState tokens)

def parse (t : Table) (tokens : List Symbol) : Outcome := (t.run tokens).outcome

end Table

end TopDown
