import TopDown.Proofs.Parse.Termination

namespace TopDown

namespace Scene

def record (c : Scene) (action : Action) : ActionRecord :=
  ⟨c.drawing.stack, c.input.headD Symbol.endMark, action⟩

inductive Traces (t : Table) : Scene → List ActionRecord → Scene → Prop
  | stop {c} : Traces t c [] c
  | move {c c₁ c₂ action records} (moves : c.Moves t action c₁) (rest : Traces t c₁ records c₂) :
    Traces t c (c.record action :: records) c₂

theorem Traces.reaches {t : Table} {c c' : Scene} {records : List ActionRecord}
    (traces : Traces t c records c') : c.Reaches t c' := by
  induction traces with
  | stop => exact Relation.ReflTransGen.refl
  | move moves _ ih => exact Relation.ReflTransGen.head ⟨_, moves⟩ ih

/-- A run that ends has a record of every move that can be reached, and no other. -/
theorem Traces.mem_iff {t : Table} {c c' : Scene} {records : List ActionRecord} {outcome : Outcome}
    (traces : c.Traces t records c') (ends : c'.Ends t outcome) {r : ActionRecord} :
    r ∈ records ↔ ∃ c₁ action c₂, c.Reaches t c₁ ∧ c₁.Moves t action c₂ ∧ r = c₁.record action := by
  induction traces with
  | stop =>
    constructor
    · intro member
      cases member
    · intro ⟨c₁, action, c₂, reaches, moves, _⟩
      obtain rfl := ends.stays reaches
      exact absurd moves ends.not_moves
  | @move c next _ first records moves _ ih =>
    rw [List.mem_cons, ih ends]
    constructor
    · intro member
      rcases member with rfl | ⟨c₁, action, c₂, reaches, moves', rfl⟩
      · exact ⟨c, first, next, Relation.ReflTransGen.refl, moves, rfl⟩
      · exact ⟨c₁, action, c₂, Relation.ReflTransGen.head ⟨first, moves⟩ reaches, moves', rfl⟩
    · intro ⟨c₁, action, c₂, reaches, moves', noted⟩
      rcases Relation.ReflTransGen.cases_head reaches with rfl | ⟨_, ⟨_, step⟩, reaches⟩
      · obtain ⟨rfl, rfl⟩ := moves.unique moves'
        exact Or.inl noted
      · obtain ⟨rfl, rfl⟩ := moves.unique step
        exact Or.inr ⟨c₁, action, c₂, reaches, moves', noted⟩

end Scene

namespace Table

variable {g : Grammar} {t : Table} {tokens : List Symbol}

theorem StopsAfter.traces (of : t.IsOf g) {n bound : Nat} {s : MachineState} {c : Scene}
    {outcome : Outcome} (stops : t.StopsAfter n s outcome) (draws : s.Draws c) (fed : c.Fed)
    (more : n < bound) :
    ∃ c', c.Traces t (t.runFrom bound s).records c' ∧ c'.Ends t outcome := by
  induction stops generalizing bound c with
  | @stop s outcome step =>
    obtain ⟨less, rfl⟩ : ∃ less, bound = less + 1 := ⟨bound - 1, by omega⟩
    exact ⟨c, by simp [Table.runFrom, step, Scene.Traces.stop], draws.ends of fed step⟩
  | @next n s s' record outcome step _ ih =>
    obtain ⟨less, rfl⟩ : ∃ less, bound = less + 1 := ⟨bound - 1, by omega⟩
    obtain ⟨token, action, c₁, head, rfl, moves, draws'⟩ := draws.moves of fed step
    have fewer : n < less := by omega
    obtain ⟨last, traces, ends⟩ := ih draws' (fed.moves of moves) fewer
    have noted : c.record action = ⟨s.stack, token, action⟩ := by
      rw [draws.input_eq] at head
      simp [Scene.record, draws.stack_eq, List.headD_eq_head?_getD, head]
    refine ⟨last, ?_, ends⟩
    simp only [Table.runFrom, step, ← noted]
    exact .move moves traces

theorem run_traces (made : g.table = .ok t) (known : ∀ s ∈ tokens, s ∈ t.terminals) :
    ∃ c, (Scene.initial t tokens).Traces t (t.run tokens).records c ∧ c.Ends t (t.parse tokens) := by
  obtain ⟨_, _, _, of⟩ := Grammar.table_isOf made
  obtain ⟨n, enough, outcome, _, stops, _⟩ := stops_below made tokens
  rw [parse, run_of_known known, stops.runFrom enough]
  exact stops.traces of (initialState_draws t tokens) (Scene.initial_fed of tokens) enough

theorem mem_records_iff (made : g.table = .ok t) (known : ∀ s ∈ tokens, s ∈ t.terminals)
    {r : ActionRecord} : r ∈ (t.run tokens).records ↔ ∃ c action c',
      (Scene.initial t tokens).Reaches t c ∧ c.Moves t action c' ∧ r = c.record action := by
  obtain ⟨last, traces, ends⟩ := run_traces made known
  exact traces.mem_iff ends

end Table

end TopDown
