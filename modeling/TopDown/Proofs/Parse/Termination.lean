import TopDown.Proofs.Parse.Potential
import TopDown.Proofs.Parse.Run
import TopDown.Proofs.Table.Outcome

namespace TopDown

namespace Scene

variable {g : Grammar} {t : Table} {c c' : Scene} {action : Action}

/-- The end mark is still to be read, and the stack does not wait for it. -/
def Fed (c : Scene) : Prop :=
  (∃ tokens, c.input = tokens ++ [Symbol.endMark]) ∧ Symbol.endMark ∉ c.drawing.stack

theorem initial_fed (of : t.IsOf g) (tokens : List Symbol) : (initial t tokens).Fed := by
  refine ⟨⟨tokens, rfl⟩, ?_⟩
  have start : Symbol.endMark ≠ t.start := by
    rw [of.start_eq]
    exact (Grammar.nonterminal_ne_endMark g.start_mem).symm
  simpa [initial] using start

theorem Fed.top {top : Symbol} {frames : List Frame} {input : List Symbol} {position : Nat}
    (fed : Fed ⟨.growing top frames, input, position⟩) :
    Symbol.endMark ≠ top ∧ Symbol.endMark ∉ Drawing.waiting frames := by
  have away := fed.2
  simpa only [Drawing.stack_growing, List.mem_cons, not_or] using away

theorem Fed.nonempty (fed : c.Fed) : c.input ≠ [] := by
  obtain ⟨⟨tokens, input⟩, _⟩ := fed
  simp [input]

theorem Fed.moves (of : t.IsOf g) (fed : c.Fed) (moves : c.Moves t action c') : c'.Fed := by
  obtain ⟨tokens, more⟩ := fed.1
  cases moves with
  | skip => exact ⟨⟨tokens, more⟩, by simpa using fed.top.2⟩
  | consume =>
    cases tokens with
    | nil => exact absurd (List.cons_eq_cons.mp more).1.symm fed.top.1
    | cons first tokens =>
      exact ⟨⟨tokens, (List.cons_eq_cons.mp more).2⟩, by simpa using fed.top.2⟩
  | @expand _ _ _ _ _ _ p first due _ _ found cell symbols =>
    have rule := (of.cell found cell).1
    have free : Symbol.endMark ∉ p.symbols := by
      intro member
      rcases g.wellFormed.symbol_declared p rule _ member with mark | terminal | nonterminal
      · exact Symbol.empty_ne_endMark mark.symm
      · exact Grammar.terminal_ne_endMark terminal rfl
      · exact Grammar.nonterminal_ne_endMark nonterminal rfl
    simp only [symbols, List.mem_cons, not_or] at free
    exact ⟨⟨tokens, more⟩, by simp [free.1, free.2, fed.top.2]⟩

theorem Ends.not_broken {outcome : Outcome} (ends : c.Ends t outcome) (fault : Fault) :
    outcome ≠ .broken fault := by
  intro broken
  cases ends with
  | accepts => cases broken
  | rejects => cases broken

end Scene

namespace MachineState.Draws

variable {g : Grammar} {t : Table} {s s' : MachineState} {c : Scene} {record : ActionRecord}
  {outcome : Outcome}

theorem ends (of : t.IsOf g) (draws : s.Draws c) (fed : c.Fed) (step : t.step s = .stop outcome) :
    c.Ends t outcome := by
  rcases Table.step_cases of.filled draws fed.nonempty with
    ⟨action, c', moves⟩ | ⟨tree, unread, complete, last, stopped⟩ | ⟨error, refuses, stopped⟩
  · obtain ⟨_, _, _, moved, _⟩ := Table.step_of_moves draws moves
    rw [step] at moved
    cases moved
  · rw [step] at stopped
    cases stopped
    obtain ⟨drawing, input, position⟩ := c
    dsimp only at complete last
    subst complete last
    exact .accepts
  · rw [step] at stopped
    cases stopped
    exact .rejects refuses

theorem moves (of : t.IsOf g) (draws : s.Draws c) (fed : c.Fed)
    (step : t.step s = .next record s') : ∃ token action c', s.input.head? = some token ∧
      record = ⟨s.stack, token, action⟩ ∧ c.Moves t action c' ∧ s'.Draws c' := by
  rcases Table.step_cases of.filled draws fed.nonempty with
    ⟨action, c', moves⟩ | ⟨_, _, _, _, stopped⟩ | ⟨_, _, stopped⟩
  · obtain ⟨token, s₁, head, moved, draws'⟩ := Table.step_of_moves draws moves
    rw [step] at moved
    cases moved
    exact ⟨token, action, c', head, rfl, moves, draws'⟩
  · rw [step] at stopped
    cases stopped
  · rw [step] at stopped
    cases stopped

end MachineState.Draws

namespace Table

variable {g : Grammar} {t : Table}

theorem exists_stop (of : t.IsOf g) (r : Ranking g) {s : MachineState} {c : Scene}
    (draws : s.Draws c) (fed : c.Fed) :
    ∃ n, n ≤ r.potential t.longest c ∧ ∃ outcome c', t.StopsAfter n s outcome ∧
      c.Reaches t c' ∧ c'.Ends t outcome := by
  -- Every move lowers the potential, so the induction is on its value.
  induction size : r.potential t.longest c using Nat.strongRecOn generalizing s c with
  | ind size ih =>
    subst size
    rcases step_cases of.filled draws fed.nonempty with
      ⟨action, c', moves⟩ | ⟨tree, unread, complete, last, step⟩ | ⟨error, refuses, step⟩
    · obtain ⟨_, s', _, step, draws'⟩ := step_of_moves draws moves
      have less := r.potential_lt of moves
      obtain ⟨n, bound, outcome, last, stops, reaches, ends⟩ :=
        ih _ less draws' (fed.moves of moves) rfl
      refine ⟨n + 1, by omega, outcome, last, .next step stops, ?_, ends⟩
      exact Relation.ReflTransGen.head ⟨action, moves⟩ reaches
    · obtain ⟨drawing, input, position⟩ := c
      dsimp only at complete last
      subst complete last
      exact ⟨0, Nat.zero_le _, _, _, .stop step, Relation.ReflTransGen.refl, .accepts⟩
    · exact ⟨0, Nat.zero_le _, _, _, .stop step, Relation.ReflTransGen.refl, .rejects refuses⟩

theorem potential_initial_lt (of : t.IsOf g) (r : Ranking g) (tokens : List Symbol) :
    r.potential t.longest (Scene.initial t tokens) < t.stepBound tokens := by
  have names : t.rows.length = g.nonterminalList.length := by
    rw [← of.names_eq, List.length_map]
  have start := r.bounded g.start g.start_mem
  have paid := Nat.mul_le_mul_right (g.allowance t.longest) (r.reserve_le [t.start])
  have light := r.weight_le t.longest t.start
  have power : (t.longest + 1) ^ (g.nonterminalList.length + 1) =
      g.allowance t.longest + (t.longest + 1) ^ g.nonterminalList.length := by
    rw [Grammar.allowance, Nat.pow_succ, Nat.mul_comm, Nat.succ_mul]
  have least : (t.longest + 1) ^ g.nonterminalList.length ≤
      (tokens.length + 2) * g.nonterminalList.length *
        (t.longest + 1) ^ g.nonterminalList.length :=
    Nat.le_mul_of_pos_left _ (Nat.mul_pos (by omega) (by omega))
  have bound : t.stepBound tokens = (tokens.length + 2) *
      (g.nonterminalList.length * g.allowance t.longest) + (tokens.length + 2) *
        g.nonterminalList.length * (t.longest + 1) ^ g.nonterminalList.length + 2 := by
    change _ * t.rows.length * (t.longest + 1) ^ (t.rows.length + 1) + 2 = _
    rw [names, power, Nat.mul_add, Nat.mul_assoc]
  have whole : r.potential t.longest (Scene.initial t tokens) = (tokens.length + 1) *
      (g.nonterminalList.length * g.allowance t.longest) +
        r.reserve [t.start] * g.allowance t.longest + r.weight t.longest t.start := by
    simp [Ranking.potential, Ranking.load, Scene.initial]
  have once : (tokens.length + 2) * (g.nonterminalList.length * g.allowance t.longest) =
      (tokens.length + 1) * (g.nonterminalList.length * g.allowance t.longest) +
        g.nonterminalList.length * g.allowance t.longest := Nat.succ_mul _ _
  omega

theorem stops_below (made : g.table = .ok t) (tokens : List Symbol) :
    ∃ n, n < t.stepBound tokens ∧ ∃ outcome c, t.StopsAfter n (t.initialState tokens) outcome ∧
      (Scene.initial t tokens).Reaches t c ∧ c.Ends t outcome := by
  obtain ⟨a, analysed, none, of⟩ := Grammar.table_isOf made
  obtain ⟨r⟩ := Analysis.exists_ranking analysed none
  obtain ⟨n, bound, outcome, c, stops, reaches, ends⟩ :=
    exists_stop of r (initialState_draws t tokens) (Scene.initial_fed of tokens)
  have enough := Nat.lt_of_le_of_lt bound (potential_initial_lt of r tokens)
  exact ⟨n, enough, outcome, c, stops, reaches, ends⟩

theorem parse_spec (made : g.table = .ok t) {tokens : List Symbol}
    (known : ∀ s ∈ tokens, s ∈ t.terminals) :
    ∃ c, (Scene.initial t tokens).Reaches t c ∧ c.Ends t (t.parse tokens) := by
  obtain ⟨n, enough, outcome, c, stops, reaches, ends⟩ := stops_below made tokens
  rw [parse_of_known known, stops.runFrom enough]
  exact ⟨c, reaches, ends⟩

/-- The loop of the machine ends, whatever the tokens are, and so does every climb on the way: one
that reached no node would break the run. The bound on the steps is never used up. -/
theorem loop_stops (made : g.table = .ok t) (tokens : List Symbol) :
    (∃ n, n < t.stepBound tokens ∧ ∃ outcome,
      t.StopsAfter n (t.initialState tokens) outcome ∧ ∀ fault, outcome ≠ .broken fault) ∧
      ∀ fault, t.parse tokens ≠ .broken fault := by
  have sound : ∀ {c : Scene} {outcome : Outcome}, c.Ends t outcome →
      ∀ fault, outcome ≠ .broken fault := by
    intro c outcome ends fault broken
    cases ends with
    | accepts => cases broken
    | rejects => cases broken
  obtain ⟨n, enough, outcome, _, stops, _, ends⟩ := stops_below made tokens
  refine ⟨⟨n, enough, outcome, stops, sound ends⟩, ?_⟩
  by_cases known : ∀ s ∈ tokens, s ∈ t.terminals
  · obtain ⟨_, _, ends⟩ := parse_spec made known
    exact sound ends
  · obtain ⟨error, rejected⟩ := parse_of_unknown known
    rw [rejected]
    intro fault broken
    cases broken

end Table

namespace Sample

theorem textbook_loop_stops :
    (∃ n, n < textbookTable.stepBound ["a", "S", "$"] ∧ ∃ outcome,
      textbookTable.StopsAfter n (textbookTable.initialState ["a", "S", "$"]) outcome ∧
        ∀ fault, outcome ≠ .broken fault) ∧
      ∀ fault, textbookTable.parse ["a", "S", "$"] ≠ .broken fault :=
  Table.loop_stops textbook_table ["a", "S", "$"]

end Sample

end TopDown
