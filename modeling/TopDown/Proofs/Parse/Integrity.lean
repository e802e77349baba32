import TopDown.Proofs.Parse.Termination
import TopDown.Table.Layout

namespace TopDown

inductive Table.Attains (t : Table) (tokens : List Symbol) : MachineState → Prop
  | start : Attains t tokens (t.initialState tokens)
  | next {s s' record} (before : Attains t tokens s) (step : t.step s = .next record s') :
    Attains t tokens s'

/-- What the machine relies on when it looks at its input, at the node of its cursor, for the node
that is next, and at last for the trees of all nodes. -/
structure MachineState.Intact (s : MachineState) : Prop where
  unread : s.input ≠ []
  at_node : ∃ node, s.sketch.nodes[s.sketch.cursor]? = some node
  at_top : ∀ top below, s.stack = top :: below → s.sketch.current = some top
  completes : s.stack ≠ [] → ∀ span, ∃ sketch, s.sketch.complete span = some sketch
  linked : Sketch.Linked s.sketch.nodes
  finishes : s.stack = [] → ∃ tree, s.sketch.finish = some tree

/-- The table has a row for each nonterminal, and there is a longest name among them. -/
structure Table.Answers (t : Table) (g : Grammar) : Prop where
  longest_name : (t.rows.map fun row => row.1.length).max? = some t.nameWidth
  expected_ok : ∀ s ∈ g.nonterminals, ∃ tokens, t.expected s = .ok tokens
  lookup_ok : ∀ s ∈ g.nonterminals, ∀ token, ∃ cell, t.lookup s token = .ok cell

theorem MachineState.Draws.intact {s : MachineState} {c : Scene} (draws : s.Draws c)
    (fed : c.Fed) : s.Intact := by
  obtain ⟨stack, input, position, sketch⟩ := s
  obtain ⟨drawing, unread, place⟩ := c
  obtain ⟨stack_eq, input_eq, position_eq, depicts⟩ := draws
  dsimp only at stack_eq input_eq position_eq depicts
  subst stack_eq input_eq position_eq
  -- A complete drawing has an empty stack, and only then is the tree asked for.
  cases depicts with
  | @growing nodes cursor n frames numbers found bare path distinct linked =>
    have depicts : Sketch.Depicts ⟨nodes, cursor⟩ (.growing n.value frames) :=
      .growing found bare path distinct linked
    refine ⟨fed.nonempty, ⟨n, found⟩, ?_, ?_, linked, ?_⟩
    · intro top below stack
      obtain ⟨rfl, _⟩ := List.cons_eq_cons.mp stack
      exact depicts.current
    · intro _ span
      obtain ⟨sketch, completed, _⟩ := depicts.complete span
      exact ⟨sketch, completed⟩
    · intro none
      cases none
  | @whole nodes tree shows linked =>
    have depicts : Sketch.Depicts ⟨nodes, 0⟩ (.complete tree) := .whole shows linked
    have root : ∃ node, nodes[0]? = some node := by
      cases shows with
      | cons found => exact ⟨_, found⟩
    refine ⟨fed.nonempty, root, ?_, fun some => absurd rfl some, linked, ?_⟩
    · intro top below stack
      cases stack
    · exact fun _ => ⟨tree, depicts.finish⟩

namespace Table

variable {g : Grammar} {t : Table} {tokens : List Symbol} {s : MachineState}

theorem Attains.draws (of : t.IsOf g) (attains : t.Attains tokens s) :
    ∃ c, s.Draws c ∧ c.Fed ∧ (Scene.initial t tokens).Reaches t c := by
  induction attains with
  | start =>
    exact ⟨_, initialState_draws t tokens, Scene.initial_fed of tokens, Relation.ReflTransGen.refl⟩
  | next _ step ih =>
    obtain ⟨c, draws, fed, reaches⟩ := ih
    obtain ⟨_, action, c', _, _, moves, draws'⟩ := draws.moves of fed step
    exact ⟨c', draws', fed.moves of moves, reaches.tail ⟨action, moves⟩⟩

theorem parse_not_broken (made : g.table = .ok t) (tokens : List Symbol) (fault : Fault) :
    t.parse tokens ≠ .broken fault := by
  by_cases known : ∀ s ∈ tokens, s ∈ t.terminals
  · obtain ⟨_, _, ends⟩ := parse_spec made known
    exact ends.not_broken fault
  · obtain ⟨error, rejected⟩ := parse_of_unknown known
    simp [rejected]

theorem IsOf.answers (of : t.IsOf g) : t.Answers g := by
  refine ⟨?_, ?_, fun s nonterminal token => of.lookup_ok nonterminal token⟩
  · obtain ⟨rest, listing⟩ := g.nonterminalList_eq_cons
    have names := of.names_eq
    rw [listing] at names
    obtain ⟨row, rows, whole, _, _⟩ := List.map_eq_cons_iff.mp names
    simp only [nameWidth, whole, List.map_cons, List.max?_cons', List.foldl_cons, Nat.zero_max]
  · intro s nonterminal
    obtain ⟨row, found, _⟩ := of.row s nonterminal
    exact ⟨(tokens row).toList, by simp [expected, Table.row, found, Except.map]⟩

end Table

/-- From a grammar on, no look-up fails. The analysis, the predict sets and the search have results,
and generation returns a table or reports left recursion or conflicts. The table answers for all
nonterminals, and on any tokens the machine comes to intact states only and does not break. -/
theorem Grammar.never_fails (g : Grammar) : ∃ a recursion, g.analysis = .ok a ∧
    (∀ p ∈ g.productions, ∃ tokens, a.predict p = .ok tokens) ∧
    a.leftRecursion = .ok recursion ∧
    (∀ failure, g.table ≠ .error (.failure failure)) ∧
    ∀ t, g.table = .ok t → t.Answers g ∧ ∀ tokens,
      (∀ s, t.Attains tokens s → s.Intact ∧ ∀ fault, t.step s ≠ .stop (.broken fault)) ∧
        ∀ fault, t.parse tokens ≠ .broken fault := by
  obtain ⟨a, analysed, of⟩ := Analysis.analysis_ok g
  obtain ⟨recursion, searched, _⟩ := Analysis.leftRecursion_ok of
  obtain ⟨d, drafted, _⟩ := Analysis.draft_ok of
  have generated : g.table = a.table := by simp only [Grammar.table, analysed]
  refine ⟨a, recursion, analysed, ?_, searched, ?_, ?_⟩
  · intro p rule
    obtain ⟨tokens, predicted, _⟩ := Analysis.predict_ok of rule
    exact ⟨tokens, predicted⟩
  · intro failure
    rw [generated, Analysis.table_eq searched drafted]
    cases recursion with
    | some cycle => simp
    | none => by_cases free : d.conflicts = [] <;> simp [free]
  · intro t made
    obtain ⟨_, _, _, isOf⟩ := Grammar.table_isOf made
    refine ⟨isOf.answers, fun tokens => ⟨fun s attains => ?_, Table.parse_not_broken made tokens⟩⟩
    obtain ⟨c, draws, fed, _⟩ := attains.draws isOf
    refine ⟨draws.intact fed, fun fault broken => ?_⟩
    exact (draws.ends isOf fed broken).not_broken fault rfl

namespace Sample

theorem textbook_never_fails : textbookTable.Answers textbookGrammar ∧
    (∃ record s, textbookTable.step (textbookTable.initialState ["a", "b"]) = .next record s ∧
      s.stack = ["a", "A", "B", "b"] ∧ s.Intact ∧
        ∀ fault, textbookTable.step s ≠ .stop (.broken fault)) ∧
    ∀ fault, textbookTable.parse ["a", "b"] ≠ .broken fault := by
  obtain ⟨_, _, _, _, _, _, served⟩ := Grammar.never_fails textbookGrammar
  obtain ⟨answers, runs⟩ := served textbookTable textbook_table
  obtain ⟨intact, whole⟩ := runs ["a", "b"]
  have step : textbookTable.step (textbookTable.initialState ["a", "b"]) =
      .next ⟨["S"], "a", .expand ⟨"S", ["a", "A", "B", "b"], 0⟩⟩
        ⟨["a", "A", "B", "b"], ["a", "b", "$"], 0,
          (Sketch.ofRoot "S").extend ["a", "A", "B", "b"]⟩ := rfl
  exact ⟨answers, ⟨_, _, step, rfl, intact _ (.next .start step)⟩, whole⟩

end Sample

end TopDown
