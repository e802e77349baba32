import TopDown.Symbol

namespace TopDown

structure Digraph where
  rows : List (Symbol × List Symbol)

namespace Digraph

def vertices (G : Digraph) : List Symbol := G.rows.map (·.1)

def successors (G : Digraph) (s : Symbol) : Except Failure (List Symbol) :=
  match G.rows.lookup s with
  | some next => .ok next
  | none => .error (.unknownSymbol s)

/-- A search ends with a cycle, written from a vertex back to itself, or with the vertices from which
no cycle can be reached. -/
inductive Search where
  | cycle (symbols : List Symbol)
  | acyclic (finished : List Symbol)
  deriving DecidableEq, Repr

/-- Tries vertices one after the other. One on the path closes a cycle, a finished one is passed
over, and any other is visited. -/
def visitEach (visit : List Symbol → Symbol → List Symbol → Except Failure Search)
    (path : List Symbol) : List Symbol → List Symbol → Except Failure Search
  | [], finished => .ok (.acyclic finished)
  | s :: rest, finished =>
    if s ∈ path then .ok (.cycle (path.dropWhile (· ≠ s) ++ [s]))
    else if s ∈ finished then visitEach visit path rest finished
    else match visit (path ++ [s]) s finished with
      | .error e => .error e
      | .ok (.cycle symbols) => .ok (.cycle symbols)
      | .ok (.acyclic finished) => visitEach visit path rest finished

def visit (G : Digraph) : Nat → List Symbol → Symbol → List Symbol → Except Failure Search
  | 0, _, _, _ => .error .unsettled
  | bound + 1, path, s, finished =>
    match G.successors s with
    | .error e => .error e
    | .ok next =>
      match visitEach (G.visit bound) path next finished with
      | .ok (.acyclic finished) => .ok (.acyclic (finished ++ [s]))
      | other => other

/-- A path has each vertex at most once, so it is never longer than the list of vertices. -/
def search (G : Digraph) : Except Failure Search :=
  visitEach (G.visit G.vertices.length) [] G.vertices []

def findCycle (G : Digraph) : Except Failure (Option (List Symbol)) :=
  match G.search with
  | .error e => .error e
  | .ok (.cycle symbols) => .ok (some symbols)
  | .ok (.acyclic _) => .ok none

end Digraph

end TopDown
