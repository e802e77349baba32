import TopDown.Tree

namespace TopDown

structure SketchNode where
  value : Symbol
  parent : Option Nat
  slot : Nat
  children : List Nat
  span : Nat × Nat
  deriving DecidableEq, Repr

/-- A tree that is being drawn. The nodes are numbered in the order in which they are made, so a
node has a greater number than its parent. The cursor is the node to be completed next. -/
structure Sketch where
  nodes : Array SketchNode
  cursor : Nat
  deriving DecidableEq, Repr

namespace Sketch

def ofRoot (value : Symbol) : Sketch := ⟨#[⟨value, none, 0, [], (0, 0)⟩], 0⟩

def current (s : Sketch) : Option Symbol := s.nodes[s.cursor]?.map (·.value)

/-- Climbs from a complete node to the first place that has a sibling on its right. The root has
none, and is its own answer. -/
def climb (nodes : Array SketchNode) : Nat → Nat → Option Nat
  | 0, _ => none
  | bound + 1, node =>
    match nodes[node]? with
    | none => none
    | some n =>
      match n.parent with
      | none => some node
      | some parent =>
        match nodes[parent]? with
        | none => none
        | some above =>
          match above.children[n.slot + 1]? with
          | some sibling => some sibling
          | none => climb nodes bound parent

def next (nodes : Array SketchNode) (node : Nat) : Option Nat := climb nodes (node + 1) node

def complete (s : Sketch) (span : Nat × Nat) : Option Sketch :=
  let nodes := s.nodes.modify s.cursor fun n => { n with span := span }
  (next nodes s.cursor).map fun cursor => ⟨nodes, cursor⟩

def newNodes (parent : Nat) (symbols : List Symbol) : List SketchNode :=
  symbols.mapIdx fun slot value => ⟨value, some parent, slot, [], (0, 0)⟩

def extend (s : Sketch) (symbols : List Symbol) : Sketch :=
  let first := s.nodes.size
  let numbers := List.range' first symbols.length
  ⟨(s.nodes.modify s.cursor fun n => { n with children := numbers }) ++
    (newNodes s.cursor symbols).toArray, first⟩

def pick (base : Nat) (later : List Tree) : List Nat → Option (List Tree)
  | [] => some []
  | number :: rest =>
    if base < number then
      match later[number - (base + 1)]? with
      | none => none
      | some t => (pick base later rest).map (t :: ·)
    else none

def treeOf (n : SketchNode) (children : List Tree) : Tree :=
  match children.head?, children.getLast? with
  | some first, some last => .node n.value first.start last.stop children
  | _, _ => .node n.value n.span.1 n.span.2 []

/-- The trees of all nodes from a base on. Children have greater numbers, so their trees are known
when the parent is reached. -/
def trees : Nat → List SketchNode → Option (List Tree)
  | _, [] => some []
  | base, n :: rest =>
    match trees (base + 1) rest with
    | none => none
    | some later =>
      (pick base later n.children).map fun children => treeOf n children :: later

def finish (s : Sketch) : Option Tree :=
  match trees 0 s.nodes.toList with
  | some (root :: _) => some root
  | _ => none

end Sketch

end TopDown
