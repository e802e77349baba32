import TopDown.Tree

namespace TopDown

def Tree.inner (value : Symbol) (before : List Tree) (last : Tree) : Tree :=
  .node value (before.head?.getD last).start last.stop (before ++ [last])

/-- An inner node one of whose children is being drawn: the complete children on the left of that
child, and the symbols on its right. -/
structure Frame where
  value : Symbol
  done : List Tree
  due : List Symbol

/-- A tree that is being drawn, without the numbers of its nodes. The innermost frame stands first.
-/
inductive Drawing where
  | growing (symbol : Symbol) (frames : List Frame)
  | complete (tree : Tree)

namespace Drawing

def resume : List Frame → Tree → Drawing
  | [], t => complete t
  | ⟨value, done, []⟩ :: frames, t => resume frames (.inner value done t)
  | ⟨value, done, s :: due⟩ :: frames, t => growing s (⟨value, done ++ [t], due⟩ :: frames)

def waiting (frames : List Frame) : List Symbol := frames.flatMap (·.due)

def stack : Drawing → List Symbol
  | growing s frames => s :: waiting frames
  | complete _ => []

@[simp] theorem waiting_nil : waiting [] = [] := rfl

@[simp] theorem waiting_cons (f : Frame) (frames : List Frame) :
    waiting (f :: frames) = f.due ++ waiting frames := rfl

@[simp] theorem stack_growing (s : Symbol) (frames : List Frame) :
    (growing s frames).stack = s :: waiting frames := rfl

@[simp] theorem stack_complete (t : Tree) : (complete t).stack = [] := rfl

@[simp] theorem stack_resume (frames : List Frame) (t : Tree) :
    (resume frames t).stack = waiting frames := by
  induction frames generalizing t with
  | nil => rfl
  | cons f frames ih =>
    obtain ⟨value, done, due⟩ := f
    cases due with
    | nil => exact ih _
    | cons s due => rfl

end Drawing

end TopDown
