import TopDown.Proofs.DerivationTree

namespace TopDown.Tree

mutual

def preorder (depth : Nat) : Tree → List (Tree × Nat)
  | node value start stop children =>
    (node value start stop children, depth) :: preorderEach (depth + 1) children

def preorderEach (depth : Nat) : List Tree → List (Tree × Nat)
  | [] => []
  | t :: rest => preorder depth t ++ preorderEach depth rest

end

theorem flatMap_atDepth (depth : Nat) (ts : List Tree) :
    (atDepth depth ts).flatMap (fun e => preorder e.2 e.1) = preorderEach depth ts := by
  induction ts with
  | nil => rfl
  | cons t rest ih => simpa [atDepth, preorderEach] using ih

theorem walk_eq (pending visited : List (Tree × Nat)) :
    walk pending visited = visited.reverse ++ pending.flatMap fun e => preorder e.2 e.1 := by
  fun_induction walk pending visited with
  | case1 visited => simp
  | case2 visited value start stop children depth rest ih =>
    rw [ih, List.flatMap_append, flatMap_atDepth]
    simp [preorder]

theorem nodes_eq_preorder (t : Tree) : t.nodes = preorder 0 t := by
  simp [nodes, walk_eq]

def token? (t : Tree) : Option Symbol :=
  if t.isLeaf && t.value != Symbol.empty then some t.value else none

mutual

theorem tokens_preorder (depth : Nat) (t : Tree) :
    (preorder depth t).filterMap (fun n => n.1.token?) = t.shape.word := by
  obtain ⟨value, start, stop, children⟩ := t
  have later := tokens_preorderEach (depth + 1) children
  cases children with
  | nil =>
    by_cases mark : value = Symbol.empty
    · simp [preorder, preorderEach, token?, isLeaf, Tree.children, Tree.value, mark, shape, shapes,
        Shape.word]
    · simp [preorder, preorderEach, token?, isLeaf, Tree.children, Tree.value, mark, shape, shapes,
        Shape.word]
  | cons first rest =>
    have inner : (node value start stop (first :: rest)).token? = none := rfl
    rw [preorder, List.filterMap_cons, inner, later, shape,
      Shape.word_inner value (by simp [shapes])]

theorem tokens_preorderEach (depth : Nat) (ts : List Tree) :
    (preorderEach depth ts).filterMap (fun n => n.1.token?) = Shape.forestWord (shapes ts) := by
  cases ts with
  | nil => simp [preorderEach, shapes, Shape.forestWord]
  | cons t rest =>
    rw [preorderEach, List.filterMap_append, tokens_preorder depth t,
      tokens_preorderEach depth rest, shapes, Shape.forestWord]

end

theorem leaves_eq_word (t : Tree) : t.leaves = t.shape.word := by
  rw [← tokens_preorder 0 t, ← nodes_eq_preorder]
  rfl

end TopDown.Tree
