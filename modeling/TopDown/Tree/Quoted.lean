import TopDown.Tree

namespace TopDown.Tree

open Text

inductive QuotedPiece where
  | text (s : String)
  | tree (t : Tree)

def quotedWeight : List QuotedPiece → Nat
  | [] => 0
  | .text _ :: rest => quotedWeight rest + 1
  | .tree t :: rest => t.weight + quotedWeight rest

theorem quotedWeight_append (ps qs : List QuotedPiece) :
    quotedWeight (ps ++ qs) = quotedWeight ps + quotedWeight qs := by
  fun_induction quotedWeight ps with
  | case1 => simp
  | case2 _ rest ih =>
    simp only [List.cons_append, quotedWeight, ih]
    omega
  | case3 _ rest ih =>
    simp only [List.cons_append, quotedWeight, ih]
    omega

def quotedOpening (t : Tree) : String :=
  "Tree(value=" ++ quoted t.value ++ ", start=" ++ toString t.start ++ ", end=" ++
    toString t.stop ++ ", children=("

def quotedClosing (t : Tree) : String := if t.children.length = 1 then ",))" else "))"

def quotedChildren : List Tree → List QuotedPiece
  | [] => []
  | [t] => [.tree t]
  | t :: rest => .tree t :: .text ", " :: quotedChildren rest

theorem quotedWeight_quotedChildren (ts : List Tree) :
    quotedWeight (quotedChildren ts) ≤ forestWeight ts := by
  fun_induction quotedChildren ts with
  | case1 => simp [forestWeight, quotedWeight]
  | case2 t => simp [forestWeight, quotedWeight]
  | case3 t rest nonempty ih =>
    simp only [quotedWeight, forestWeight]
    omega

/-- The second argument holds what has been written, last first. -/
def writeQuoted : List QuotedPiece → List String → List String
  | [], written => written.reverse
  | .text s :: rest, written => writeQuoted rest (s :: written)
  | .tree t :: rest, written =>
    writeQuoted (quotedChildren t.children ++ .text t.quotedClosing :: rest)
      (t.quotedOpening :: written)
termination_by pending => quotedWeight pending
decreasing_by
  · simp [quotedWeight]
  · obtain ⟨value, start, stop, children⟩ := t
    have bound := quotedWeight_quotedChildren children
    simp only [quotedWeight_append, quotedWeight, Tree.weight, Tree.children]
    omega

def quotedText (t : Tree) : String := String.join (writeQuoted [.tree t] [])

end TopDown.Tree
