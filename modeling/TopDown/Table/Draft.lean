import TopDown.Grammar
import TopDown.Table
import TopDown.Table.Conflict

namespace TopDown

/-- A table that is being filled. The first production of a cell stays, and every later one that
differs from it is recorded as a conflict. -/
structure Draft where
  start : Symbol
  terminals : SymbolSet
  rows : List (Symbol × Row)
  conflicts : List Conflict
  deriving DecidableEq

namespace Draft

def ofGrammar (g : Grammar) : Draft :=
  ⟨g.start, g.terminals, g.nonterminalList.map fun s => (s, []), []⟩

def setRow (rows : List (Symbol × Row)) (name : Symbol) (row : Row) : List (Symbol × Row) :=
  rows.map fun r => if r.1 = name then (r.1, row) else r

def enter (d : Draft) (token : Symbol) (p : Production) : Except Failure Draft :=
  match d.rows.lookup p.name with
  | none => .error (.unknownSymbol p.name)
  | some row =>
    match row.lookup token with
    | none => .ok { d with rows := setRow d.rows p.name (row ++ [(token, p)]) }
    | some held =>
      if held = p then .ok d
      else .ok { d with conflicts := d.conflicts ++ [⟨p.name, token, held, p⟩] }

def enterEach (p : Production) : List Symbol → Draft → Except Failure Draft
  | [], d => .ok d
  | token :: rest, d =>
    match d.enter token p with
    | .error e => .error e
    | .ok d => enterEach p rest d

structure Published where
  start : Symbol
  terminals : SymbolSet
  deriving DecidableEq

def publish (d : Draft) : Except (List Conflict) Published :=
  if d.conflicts.isEmpty then .ok ⟨d.start, d.terminals⟩ else .error d.conflicts

/-- A published table as it reads while its draft is in a given state. -/
def Published.read (t : Published) (d : Draft) : Table := ⟨t.start, t.terminals, d.rows⟩

end Draft

end TopDown
