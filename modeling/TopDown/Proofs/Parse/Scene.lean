import TopDown.Parse.Machine
import TopDown.Proofs.Parse.Depiction

namespace TopDown

/-- A state of the machine with a drawing in place of the stack and the sketch. -/
structure Scene where
  drawing : Drawing
  input : List Symbol
  position : Nat

namespace Scene

def initial (t : Table) (tokens : List Symbol) : Scene :=
  ⟨.growing t.start [], tokens ++ [Symbol.endMark], 0⟩

inductive Moves (t : Table) : Scene → Action → Scene → Prop
  | skip {frames token unread position} :
    Moves t ⟨.growing Symbol.empty frames, token :: unread, position⟩ .skip
      ⟨.resume frames (.node Symbol.empty position position []), token :: unread, position⟩
  | consume {frames token unread position} (plain : token ≠ Symbol.empty) :
    Moves t ⟨.growing token frames, token :: unread, position⟩ .consume
      ⟨.resume frames (.node token position (position + 1) []), unread, position + 1⟩
  | expand {top frames token unread position row p first due} (plain : top ≠ Symbol.empty)
    (other : top ≠ token) (found : t.rows.lookup top = some row)
    (cell : row.lookup token = some p) (symbols : p.symbols = first :: due) :
    Moves t ⟨.growing top frames, token :: unread, position⟩ (.expand p)
      ⟨.growing first (⟨top, [], due⟩ :: frames), token :: unread, position⟩

inductive Refuses (t : Table) : Scene → SyntaxError → Prop
  | surplus {tree token unread position} (more : token ≠ Symbol.endMark) :
    Refuses t ⟨.complete tree, token :: unread, position⟩
      ⟨.surplus, position, token, [], [Symbol.endMark]⟩
  | mismatch {top frames token unread position} (plain : top ≠ Symbol.empty) (other : top ≠ token)
    (unknown : t.rows.lookup top = none) :
    Refuses t ⟨.growing top frames, token :: unread, position⟩
      ⟨.mismatch top, position, token, (top :: Drawing.waiting frames).reverse, [top]⟩
  | noAlternative {top frames token unread position row} (plain : top ≠ Symbol.empty)
    (other : top ≠ token) (found : t.rows.lookup top = some row)
    (unfilled : row.lookup token = none) :
    Refuses t ⟨.growing top frames, token :: unread, position⟩
      ⟨.noAlternative top, position, token, (top :: Drawing.waiting frames).reverse,
        (Table.tokens row).toList⟩

end Scene

structure MachineState.Draws (s : MachineState) (c : Scene) : Prop where
  stack_eq : s.stack = c.drawing.stack
  input_eq : s.input = c.input
  position_eq : s.position = c.position
  depicts : s.sketch.Depicts c.drawing

namespace Table

variable {t : Table} {s : MachineState} {c c' : Scene} {action : Action}

theorem initialState_draws (t : Table) (tokens : List Symbol) :
    (t.initialState tokens).Draws (Scene.initial t tokens) :=
  ⟨rfl, rfl, rfl, Sketch.ofRoot_depicts t.start⟩

theorem step_of_moves (draws : s.Draws c) (moves : c.Moves t action c') :
    ∃ token s', s.input.head? = some token ∧ t.step s = .next ⟨s.stack, token, action⟩ s' ∧
      s'.Draws c' := by
  obtain ⟨stack, input, position, sketch⟩ := s
  obtain ⟨rfl, rfl, rfl, depicts⟩ := draws
  cases moves with
  | @skip frames token unread position =>
    obtain ⟨drawn, completed, depicts'⟩ := depicts.complete (position, position)
    have current := depicts.current
    refine ⟨token, ⟨Drawing.waiting frames, token :: unread, position, drawn⟩, rfl, ?_, ?_⟩
    · simp [step, current, choose, advance, completed]
    · exact ⟨(Drawing.stack_resume _ _).symm, rfl, rfl, depicts'⟩
  | @consume frames token unread position plain =>
    obtain ⟨drawn, completed, depicts'⟩ := depicts.complete (position, position + 1)
    have current := depicts.current
    refine ⟨token, ⟨Drawing.waiting frames, unread, position + 1, drawn⟩, rfl, ?_, ?_⟩
    · simp [step, current, choose, advance, completed, plain]
    · exact ⟨(Drawing.stack_resume _ _).symm, rfl, rfl, depicts'⟩
  | @expand top frames token unread position row p first due plain other found cell symbols =>
    have current := depicts.current
    refine ⟨token, ⟨p.symbols ++ Drawing.waiting frames, token :: unread, position,
      sketch.extend p.symbols⟩, rfl, ?_, ?_⟩
    · simp [step, current, choose, advance, plain, other, found, cell]
    · exact ⟨by simp [symbols], rfl, rfl, symbols ▸ depicts.extend first due⟩

theorem step_cases (filled : ∀ top row token p, t.rows.lookup top = some row →
      row.lookup token = some p → p.symbols ≠ [])
    (draws : s.Draws c) (more : c.input ≠ []) :
    (∃ action c', c.Moves t action c') ∨
      (∃ tree unread, c.drawing = .complete tree ∧ c.input = Symbol.endMark :: unread ∧
        t.step s = .stop (.accepted tree)) ∨
        ∃ error, c.Refuses t error ∧ t.step s = .stop (.rejected error) := by
  obtain ⟨stack, input, position, sketch⟩ := s
  obtain ⟨drawing, symbols, place⟩ := c
  obtain ⟨stack_eq, input_eq, position_eq, depicts⟩ := draws
  dsimp only at more stack_eq input_eq position_eq depicts
  obtain ⟨token, unread, rfl⟩ := List.exists_cons_of_ne_nil more
  subst stack_eq input_eq position_eq
  cases drawing with
  | complete tree =>
    by_cases last : token = Symbol.endMark
    · subst last
      exact Or.inr (Or.inl ⟨tree, unread, rfl, rfl, by simp [step, depicts.finish]⟩)
    · exact Or.inr (Or.inr ⟨_, .surplus last, by simp [step, last]⟩)
  | growing top frames =>
    have current := depicts.current
    by_cases mark : top = Symbol.empty
    · subst mark
      exact Or.inl ⟨_, _, .skip⟩
    by_cases same : top = token
    · subst same
      exact Or.inl ⟨_, _, .consume mark⟩
    cases found : t.rows.lookup top with
    | none =>
      refine Or.inr (Or.inr ⟨_, .mismatch mark same found, ?_⟩)
      simp [step, current, choose, mark, same, found]
    | some row =>
      cases cell : row.lookup token with
      | none =>
        refine Or.inr (Or.inr ⟨_, .noAlternative mark same found cell, ?_⟩)
        simp [step, current, choose, mark, same, found, cell]
      | some p =>
        obtain ⟨first, due, body⟩ := List.exists_cons_of_ne_nil (filled _ _ _ _ found cell)
        exact Or.inl ⟨_, _, .expand mark same found cell body⟩

end Table

end TopDown
