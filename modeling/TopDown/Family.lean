import TopDown.SymbolSet

namespace TopDown

/-- A set for each of finitely many symbols. -/
structure Family where
  entries : List (Symbol × SymbolSet)

namespace Family

def ofList (pairs : List (Symbol × SymbolSet)) : Family :=
  ⟨pairs.foldl (fun entries e => entries.filter (·.1 ≠ e.1) ++ [e]) []⟩

def symbols (F : Family) : List Symbol := F.entries.map (·.1)

def find (F : Family) (s : Symbol) : Except Failure SymbolSet :=
  match F.entries.lookup s with
  | some set => .ok set
  | none => .error (.unknownSymbol s)

def enlarge (F : Family) (s : Symbol) (more : SymbolSet) : Family :=
  ⟨F.entries.map fun e => if e.1 = s then (e.1, e.2.union more) else e⟩

def toList (F : Family) : List (Symbol × SymbolSet) :=
  (SymbolSet.ofList F.symbols).toList.filterMap fun s => (F.entries.lookup s).map fun set => (s, set)

def members (F : Family) : SymbolSet := F.entries.foldl (fun u e => u.union e.2) ∅

/-- How many members of a set the sets of a family still lack. -/
def room (all : SymbolSet) (F : Family) : Nat :=
  F.entries.foldr (fun e total => (all.size - e.2.size) + total) 0

/-- What a sequence of symbols can begin with, when the family says it of each symbol: symbols count
as long as all before them can be empty, and `ε` is a member if all of them can. -/
def leading (F : Family) : List Symbol → Except Failure SymbolSet
  | [] => .ok (.singleton Symbol.empty)
  | s :: rest =>
    if s = Symbol.empty then F.leading rest
    else match F.find s with
      | .error e => .error e
      | .ok first =>
        if Symbol.empty ∈ first then
          (F.leading rest).map fun more => (first.erase Symbol.empty).union more
        else .ok first

/-- A sweep answers the family after it and whether some set grew. A sweep that fails keeps what it
has added until then. -/
abbrev Sweep := Family → Family × Except Failure Bool

structure Settled where
  family : Family
  sweeps : Nat

def settle (sweep : Sweep) : Nat → Family → Except Failure Settled
  | 0, _ => .error .unsettled
  | bound + 1, F =>
    match sweep F with
    | (_, .error e) => .error e
    | (G, .ok false) => .ok ⟨G, 1⟩
    | (G, .ok true) => (settle sweep bound G).map fun settled => ⟨settled.family, settled.sweeps + 1⟩

end Family

end TopDown
