import TopDown.Tree

namespace TopDown

/-- The fields of an object keep their order. -/
inductive JsonValue where
  | number (value : Int)
  | string (text : String)
  | array (items : List JsonValue)
  | object (fields : List (String × JsonValue))

namespace Tree

open Text

/-- Every node after its children, and children from left to right. The second list holds what has
been visited, with the node that was visited last in front. -/
def walkBack : List Tree → List Tree → List Tree
  | [], visited => visited
  | node value start stop children :: rest, visited =>
    walkBack (children.reverseAux rest) (node value start stop children :: visited)
termination_by pending => forestWeight pending
decreasing_by
  simp only [List.reverseAux_eq, forestWeight_append, forestWeight_reverse, forestWeight, weight]
  omega

def jsonNode (t : Tree) (children : List JsonValue) : JsonValue :=
  .object [("value", .string t.value), ("start", .number t.start), ("end", .number t.stop),
    ("children", .array children)]

/-- A node takes the values of its children from the front, where the last child comes first. -/
def assemble : List Tree → List JsonValue → List JsonValue
  | [], built => built
  | t :: rest, built =>
    let count := t.children.length
    assemble rest (t.jsonNode (built.take count).reverse :: built.drop count)

def toJson? (t : Tree) : Option JsonValue := (assemble (walkBack [t] []) []).head?

inductive JsonPiece where
  | text (s : String)
  | tree (t : Tree) (level : Nat)

def jsonWeight : List JsonPiece → Nat
  | [] => 0
  | .text _ :: rest => jsonWeight rest + 1
  | .tree t _ :: rest => t.weight + jsonWeight rest

theorem jsonWeight_append (ps qs : List JsonPiece) :
    jsonWeight (ps ++ qs) = jsonWeight ps + jsonWeight qs := by
  fun_induction jsonWeight ps with
  | case1 => simp
  | case2 _ rest ih =>
    simp only [List.cons_append, jsonWeight, ih]
    omega
  | case3 _ _ rest ih =>
    simp only [List.cons_append, jsonWeight, ih]
    omega

def newline (indent : Option Int) (level : Nat) : String :=
  match indent with
  | none => ""
  | some n => "\n" ++ blanks (n * level).toNat

def comma (indent : Option Int) : String :=
  match indent with
  | none => ", "
  | some _ => ","

def jsonOpening (indent : Option Int) (level : Nat) (t : Tree) : String :=
  let inner := newline indent (level + 1)
  let next := comma indent ++ inner
  "\x7b" ++ inner ++ "\"value\": " ++ jsonString t.value ++ next ++
    "\"start\": " ++ toString t.start ++ next ++ "\"end\": " ++ toString t.stop ++ next ++
      if t.children.isEmpty then "\"children\": []" ++ newline indent level ++ "\x7d"
      else "\"children\": [" ++ newline indent (level + 2)

def jsonClosing (indent : Option Int) (level : Nat) : String :=
  newline indent (level + 1) ++ "]" ++ newline indent level ++ "\x7d"

def jsonItems (between : String) (level : Nat) : List Tree → List JsonPiece
  | [] => []
  | [t] => [.tree t level]
  | t :: rest => .tree t level :: .text between :: jsonItems between level rest

def jsonChildren (indent : Option Int) (level : Nat) (t : Tree) : List JsonPiece :=
  if t.children.isEmpty then []
  else
    jsonItems (comma indent ++ newline indent (level + 2)) (level + 2) t.children ++
      [.text (jsonClosing indent level)]

theorem jsonWeight_jsonItems (between : String) (level : Nat) (ts : List Tree) :
    jsonWeight (jsonItems between level ts) ≤ forestWeight ts := by
  fun_induction jsonItems between level ts with
  | case1 => simp [forestWeight, jsonWeight]
  | case2 t => simp [forestWeight, jsonWeight]
  | case3 t rest nonempty ih =>
    simp only [jsonWeight, forestWeight]
    omega

theorem jsonWeight_jsonChildren (indent : Option Int) (level : Nat) (t : Tree) :
    jsonWeight (jsonChildren indent level t) < t.weight := by
  obtain ⟨value, start, stop, children⟩ := t
  have bound := jsonWeight_jsonItems (comma indent ++ newline indent (level + 2)) (level + 2) children
  cases leaf : children.isEmpty with
  | true => simp [jsonChildren, jsonWeight, Tree.children, Tree.weight, leaf]
  | false =>
    simp only [jsonChildren, Tree.children, Tree.weight, leaf, Bool.false_eq_true, if_false,
      jsonWeight_append, jsonWeight]
    omega

def writeJson (indent : Option Int) : List JsonPiece → List String → List String
  | [], written => written.reverse
  | .text s :: rest, written => writeJson indent rest (s :: written)
  | .tree t level :: rest, written =>
    writeJson indent (jsonChildren indent level t ++ rest) (jsonOpening indent level t :: written)
termination_by pending => jsonWeight pending
decreasing_by
  · simp [jsonWeight]
  · have bound := jsonWeight_jsonChildren indent level t
    simp only [jsonWeight_append, jsonWeight]
    omega

def jsonText (indent : Option Int) (t : Tree) : String :=
  String.join (writeJson indent [.tree t 0] [])

end Tree

end TopDown
