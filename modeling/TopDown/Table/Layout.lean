import TopDown.Table
import TopDown.Text

namespace TopDown.Table

open Text

def columns (t : Table) : List Symbol := t.terminals.toList ++ [Symbol.endMark]

def cellText (row : Row) (token : Symbol) : String :=
  match row.lookup token with
  | some p => toString p.index
  | none => ""

def columnWidth (t : Table) (token : Symbol) : Nat :=
  (t.rows.map fun row => (cellText row.2 token).length).foldl max token.length

def nameWidth (t : Table) : Nat := (t.rows.map fun row => row.1.length).foldl max 0

def line (t : Table) (name : String) (cell : Symbol → String) : String :=
  padRight t.nameWidth name ++ " | " ++
    " ".intercalate (t.columns.map fun token => padRight (t.columnWidth token) (cell token))

def header (t : Table) : String := t.line "" id

def grid (t : Table) : List String :=
  t.header :: String.ofList (List.replicate t.header.length '-') ::
    t.rows.map fun row => t.line row.1 (cellText row.2)

/-- Puts a production at the place of its index; it takes the place of one with the same index. -/
def place (p : Production) : List Production → List Production
  | [] => [p]
  | q :: rest =>
    if p.index < q.index then p :: q :: rest
    else if p.index = q.index then p :: rest
    else q :: place p rest

def listed (t : Table) : List Production := t.productions.foldl (fun ps p => place p ps) []

def format (t : Table) : String :=
  "\n".intercalate (t.grid ++ "" :: t.listed.map (·.listing))

end TopDown.Table
