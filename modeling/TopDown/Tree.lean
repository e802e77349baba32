import TopDown.Symbol
import TopDown.Text

namespace TopDown

/-- A symbol and the tokens it covers, from `start` up to but not including `stop`. -/
inductive Tree where
  | node (value : Symbol) (start stop : Int) (children : List Tree)

namespace Tree

def value : Tree → Symbol
  | node value _ _ _ => value

def start : Tree → Int
  | node _ start _ _ => start

def stop : Tree → Int
  | node _ _ stop _ => stop

def children : Tree → List Tree
  | node _ _ _ children => children

def isLeaf (t : Tree) : Bool := t.children.isEmpty

mutual

def weight : Tree → Nat
  | node _ _ _ children => forestWeight children + 2

/-- One for each tree beside its weight, so that a walk may also visit what stands between trees. -/
def forestWeight : List Tree → Nat
  | [] => 0
  | t :: rest => weight t + forestWeight rest + 1

end

theorem forestWeight_append (ts us : List Tree) :
    forestWeight (ts ++ us) = forestWeight ts + forestWeight us := by
  induction ts with
  | nil => simp [forestWeight]
  | cons t rest ih =>
    simp only [List.cons_append, forestWeight, ih]
    omega

theorem forestWeight_reverse (ts : List Tree) : forestWeight ts.reverse = forestWeight ts := by
  induction ts with
  | nil => rfl
  | cons t rest ih =>
    simp only [List.reverse_cons, forestWeight_append, ih, forestWeight]
    omega

def atDepth (depth : Nat) (ts : List Tree) : List (Tree × Nat) := ts.map fun t => (t, depth)

@[simp] theorem map_fst_atDepth (depth : Nat) (ts : List Tree) :
    (atDepth depth ts).map (·.1) = ts := by
  simp [atDepth, Function.comp_def]

/-- Every node with its depth, parents before children and children from left to right. The second
list holds what has been visited, last first. Trees become as deep as their input is long, so every
walk keeps its own list of what is still to be visited, and ends because the weight of that list
falls. -/
def walk : List (Tree × Nat) → List (Tree × Nat) → List (Tree × Nat)
  | [], visited => visited.reverse
  | (node value start stop children, depth) :: rest, visited =>
    walk (atDepth (depth + 1) children ++ rest)
      ((node value start stop children, depth) :: visited)
termination_by pending => forestWeight (pending.map (·.1))
decreasing_by
  simp only [List.map_append, List.map_cons, map_fst_atDepth, forestWeight_append, forestWeight,
    weight]
  omega

def nodes (t : Tree) : List (Tree × Nat) := walk [(t, 0)] []

def leaves (t : Tree) : List Symbol :=
  t.nodes.filterMap fun n =>
    if n.1.isLeaf && n.1.value != Symbol.empty then some n.1.value else none

def sameEach : List (Tree × Tree) → Bool
  | [] => true
  | (node value start stop children, node value' start' stop' children') :: rest =>
    if value = value' ∧ start = start' ∧ stop = stop' ∧ children.length = children'.length then
      sameEach (children.zip children' ++ rest)
    else false
termination_by pending => forestWeight (pending.map (·.1))
decreasing_by
  rename_i agree
  have zipped : (children.zip children').map (·.1) = children :=
    List.map_fst_zip (Nat.le_of_eq agree.2.2.2)
  simp only [List.map_append, List.map_cons, forestWeight_append, forestWeight, weight, zipped]
  omega

def same (t u : Tree) : Bool := sameEach [(t, u)]

instance : BEq Tree := ⟨same⟩

def spanText (t : Tree) : String :=
  t.value ++ " [" ++ toString t.start ++ ", " ++ toString t.stop ++ ")"

def lines (t : Tree) : List String := t.nodes.map fun n => Text.blanks (2 * n.2) ++ n.1.spanText

def format (t : Tree) : String := "\n".intercalate t.lines

end Tree

end TopDown
