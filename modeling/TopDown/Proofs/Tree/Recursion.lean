import TopDown.Proofs.Tree.Equality
import TopDown.Proofs.Tree.Walk

namespace TopDown.Tree

open Text

mutual

def linesAt (depth : Nat) : Tree → List String
  | node value start stop children =>
    (blanks (2 * depth) ++ (value ++ " [" ++ toString start ++ ", " ++ toString stop ++ ")")) ::
      linesAtEach (depth + 1) children

def linesAtEach (depth : Nat) : List Tree → List String
  | [] => []
  | t :: rest => linesAt depth t ++ linesAtEach depth rest

end

mutual

def frontier : Tree → List Symbol
  | node value _ _ [] => if value = Symbol.empty then [] else [value]
  | node _ _ _ (first :: rest) => frontier first ++ frontierEach rest

def frontierEach : List Tree → List Symbol
  | [] => []
  | t :: rest => frontier t ++ frontierEach rest

end

inductive Agrees : Tree → Tree → Prop
  | node {value start stop children children'} (lengths : children.length = children'.length)
    (each : ∀ pair ∈ children.zip children', Agrees pair.1 pair.2) :
    Agrees (node value start stop children) (node value start stop children')

mutual

theorem map_line_preorder (depth : Nat) (t : Tree) :
    (preorder depth t).map (fun n => blanks (2 * n.2) ++ n.1.spanText) = linesAt depth t := by
  obtain ⟨value, start, stop, children⟩ := t
  rw [preorder, linesAt, List.map_cons, map_line_preorderEach (depth + 1) children]
  rfl

theorem map_line_preorderEach (depth : Nat) (ts : List Tree) :
    (preorderEach depth ts).map (fun n => blanks (2 * n.2) ++ n.1.spanText) =
      linesAtEach depth ts := by
  cases ts with
  | nil => rfl
  | cons t rest =>
    rw [preorderEach, linesAtEach, List.map_append, map_line_preorder depth t,
      map_line_preorderEach depth rest]

end

theorem lines_eq_linesAt (t : Tree) : t.lines = linesAt 0 t := by
  rw [lines, nodes_eq_preorder, map_line_preorder]

mutual

theorem word_shape (t : Tree) : t.shape.word = t.frontier := by
  obtain ⟨value, start, stop, children⟩ := t
  cases children with
  | nil => rw [shape, shapes, Shape.word, frontier]
  | cons first rest =>
    rw [shape, shapes, Shape.word, frontier, word_shape first, forestWord_shapes rest]

theorem forestWord_shapes (ts : List Tree) : Shape.forestWord (shapes ts) = frontierEach ts := by
  cases ts with
  | nil => rfl
  | cons t rest => rw [shapes, Shape.forestWord, frontierEach, word_shape t, forestWord_shapes rest]

end

mutual

theorem agrees_refl (t : Tree) : t.Agrees t := by
  obtain ⟨value, start, stop, children⟩ := t
  exact .node rfl (agrees_refl_each children)

theorem agrees_refl_each (ts : List Tree) : ∀ pair ∈ ts.zip ts, Agrees pair.1 pair.2 := by
  cases ts with
  | nil => simp
  | cons t rest => exact List.forall_mem_cons.mpr ⟨agrees_refl t, agrees_refl_each rest⟩

end

theorem agrees_iff_eq {t u : Tree} : t.Agrees u ↔ t = u := by
  constructor
  · intro agrees
    induction agrees with
    | node lengths each same => rw [(forall_mem_zip lengths).mp same]
  · rintro rfl
    exact agrees_refl t

/-- In whatever order the pairs are pending, the comparison holds if they all agree. -/
theorem sameEach_iff_agrees (pending : List (Tree × Tree)) :
    sameEach pending = true ↔ ∀ pair ∈ pending, pair.1.Agrees pair.2 := by
  simp only [sameEach_iff, agrees_iff_eq]

/-- The lines, the leaves and the comparison are as recursion gives them, and so the comparison is an
equivalence. -/
theorem walks_recursive :
    (∀ t : Tree, t.lines = t.linesAt 0) ∧ (∀ t : Tree, t.leaves = t.frontier) ∧
      (∀ t u : Tree, (t == u) = true ↔ t.Agrees u) ∧
        Equivalence fun t u : Tree => (t == u) = true := by
  refine ⟨lines_eq_linesAt, fun t => (leaves_eq_word t).trans (word_shape t), ?_, ?_⟩
  · intro t u
    have pair := sameEach_iff_agrees [(t, u)]
    rwa [List.forall_mem_singleton] at pair
  · simp only [beq_iff_eq]
    exact eq_equivalence

end TopDown.Tree
