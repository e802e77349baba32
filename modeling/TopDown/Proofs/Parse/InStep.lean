import TopDown.Proofs.Parse.Alignment
import TopDown.Proofs.Parse.Integrity
import TopDown.Proofs.Parse.Soundness

namespace TopDown

namespace Table

inductive Does (t : Table) : MachineState → Action → MachineState → Prop
  | skip {below input position} {sketch sketch' : Sketch}
    (completed : sketch.complete (position, position) = some sketch') :
    Does t ⟨Symbol.empty :: below, input, position, sketch⟩ .skip
      ⟨below, input, position, sketch'⟩
  | consume {token below unread position} {sketch sketch' : Sketch}
    (completed : sketch.complete (position, position + 1) = some sketch') :
    Does t ⟨token :: below, token :: unread, position, sketch⟩ .consume
      ⟨below, unread, position + 1, sketch'⟩
  | expand {top token below unread position row p} {sketch : Sketch}
    (found : t.rows.lookup top = some row) (cell : row.lookup token = some p) :
    Does t ⟨top :: below, token :: unread, position, sketch⟩ (.expand p)
      ⟨p.symbols ++ below, token :: unread, position, sketch.extend p.symbols⟩

def Leads (t : Table) : MachineState → MachineState → Prop :=
  Relation.ReflTransGen fun s s' => ∃ record, t.step s = .next record s'

/-- The span of a node was recorded on the way to a state, by the step that completed it, and it is
the stretch of input that this step read. -/
inductive Recorded (t : Table) (tokens : List Symbol) (s : MachineState) (i : Nat) : Prop
  | intro {before after record n} (attains : t.Attains tokens before)
    (step : t.step before = .next record after) (here : before.sketch.cursor = i)
    (leaf : record.action = .skip ∨ record.action = .consume) (onward : t.Leads after s)
    (found : s.sketch.nodes[i]? = some n) (span : n.span = (before.position, after.position))

/-- The cursor and the sketch fit the stack, and once the stack is empty, the spans of the leaves fit
the tokens that are read. -/
structure InStep (t : Table) (tokens : List Symbol) (s : MachineState) : Prop where
  unread : s.input = tokens.drop s.position ++ [Symbol.endMark]
  placed : Sketch.Placed s.sketch.nodes
  due : s.stack ≠ [] → ∃ due, Sketch.Itinerary s.sketch.nodes s.sketch.cursor due ∧ due.Nodup ∧
    (∀ i ∈ due, ∃ n, s.sketch.nodes[i]? = some n ∧ n.children = []) ∧
    due.map (fun i => s.sketch.nodes[i]?.map SketchNode.value) = s.stack.map some
  at_root : s.stack = [] → s.sketch.cursor = 0
  leaf : s.stack = [] → ∀ (i : Nat) n, s.sketch.nodes[i]? = some n → n.children = [] →
    (n.value ∈ t.terminals ∨ n.value = Symbol.empty) ∧ t.Recorded tokens s i
  tiled : s.stack = [] → ∃ leaves, Sketch.Frontier s.sketch.nodes [0] leaves ∧ leaves.Nodup ∧
    (∀ i, i ∈ leaves ↔ ∃ n, s.sketch.nodes[i]? = some n ∧ n.children = []) ∧
    Sketch.Tiles tokens s.sketch.nodes 0 leaves s.position

variable {g : Grammar} {t : Table} {tokens : List Symbol} {s s' : MachineState}
  {record : ActionRecord} {i : Nat}

theorem choose_eq_ok {top token : Symbol} {action : Action} (chosen : t.choose top token = .ok action) :
    (top = Symbol.empty ∧ action = .skip) ∨ (top = token ∧ action = .consume) ∨
      ∃ row p, t.rows.lookup top = some row ∧ row.lookup token = some p ∧ action = .expand p := by
  unfold choose at chosen
  grind

theorem step_eq_next (step : t.step s = .next record s') : ∃ top below token unread,
    s.stack = top :: below ∧ s.input = token :: unread ∧ t.choose top token = .ok record.action ∧
      advance s below unread record.action = some s' := by
  unfold Table.step at step
  cases input : s.input with
  | nil => simp [input] at step
  | cons token unread =>
    cases stack : s.stack with
    | nil =>
      simp only [input, stack] at step
      grind
    | cons top below =>
      simp only [input, stack] at step
      grind

theorem step_does (step : t.step s = .next record s') : t.Does s record.action s' := by
  obtain ⟨top, below, token, unread, stack, input, chosen, advanced⟩ := step_eq_next step
  obtain ⟨_, _, position, sketch⟩ := s
  obtain rfl : _ = top :: below := stack
  obtain rfl : _ = token :: unread := input
  rcases choose_eq_ok chosen with ⟨rfl, same⟩ | ⟨rfl, same⟩ | ⟨row, p, found, cell, same⟩
  all_goals rw [same] at advanced ⊢
  · obtain ⟨sketch', completed, rfl⟩ := Option.map_eq_some_iff.mp advanced
    exact .skip completed
  · obtain ⟨sketch', completed, rfl⟩ := Option.map_eq_some_iff.mp advanced
    exact .consume completed
  · obtain rfl := Option.some.inj advanced
    exact .expand found cell

theorem Recorded.later (recorded : t.Recorded tokens s i) (step : t.step s = .next record s')
    (kept : ∀ n, s.sketch.nodes[i]? = some n → ∃ n', s'.sketch.nodes[i]? = some n' ∧ n'.span = n.span) :
    t.Recorded tokens s' i := by
  obtain ⟨attains, before, here, leaf, onward, found, span⟩ := recorded
  obtain ⟨n', found', same⟩ := kept _ found
  exact ⟨attains, before, here, leaf, onward.tail ⟨record, step⟩, found', same.trans span⟩

theorem aligned_complete {top : Symbol} {done due : List Nat} (attains : t.Attains tokens s)
    (step : t.step s = .next record s') (leaf : record.action = .skip ∨ record.action = .consume)
    (stack : s.stack = top :: s'.stack)
    (completed : s.sketch.complete (s.position, s'.position) = some s'.sketch)
    (covers : (top = Symbol.empty ∧ s'.position = s.position) ∨
      (tokens[s.position]? = some top ∧ s'.position = s.position + 1))
    (aligned : s.sketch.Aligned tokens s.stack s.position done due)
    (recorded : ∀ i ∈ done, t.Recorded tokens s i) :
    ∃ done' due', s'.sketch.Aligned tokens s'.stack s'.position done' due' ∧
      ∀ i ∈ done', t.Recorded tokens s' i := by
  rw [stack] at aligned
  obtain ⟨n, found, _, _⟩ := aligned.at_cursor
  obtain ⟨rest, aligned'⟩ := aligned.complete completed covers
  refine ⟨_, rest, aligned', fun i member => ?_⟩
  rcases List.mem_append.mp member with before | here
  · have other : s.sketch.cursor ≠ i := fun here => aligned.cursor_fresh (here ▸ before)
    refine (recorded i before).later step fun n found => ?_
    exact ⟨_, Sketch.complete_get completed found, by simp [other]⟩
  · obtain rfl := List.mem_singleton.mp here
    exact .intro attains step rfl leaf .refl (Sketch.complete_get completed found) (by simp)

theorem aligned_step {done due : List Nat} (of : t.IsOf g) (attains : t.Attains tokens s)
    (step : t.step s = .next record s') (unread : s.input = tokens.drop s.position ++ [Symbol.endMark])
    (plain : Symbol.endMark ∉ s.stack)
    (aligned : s.sketch.Aligned tokens s.stack s.position done due)
    (recorded : ∀ i ∈ done, t.Recorded tokens s i) :
    ∃ done' due', s'.sketch.Aligned tokens s'.stack s'.position done' due' ∧
      ∀ i ∈ done', t.Recorded tokens s' i := by
  have does := step_does step
  generalize taken : record.action = action at does
  cases does with
  | skip completed =>
    exact aligned_complete attains step (Or.inl taken) rfl completed (Or.inl ⟨rfl, rfl⟩) aligned
      recorded
  | @consume token below left position _ _ completed =>
    have there : tokens[position]? = some token := by
      rcases next_token unread with ⟨there, _⟩ | ⟨mark, _⟩
      · exact there
      · simp [mark] at plain
    exact aligned_complete attains step (Or.inr taken) rfl completed (Or.inr ⟨there, rfl⟩) aligned
      recorded
  | @expand _ _ _ _ _ _ p _ found cell =>
    obtain ⟨due', aligned'⟩ := aligned.extend (of.filled _ _ _ _ found cell)
    refine ⟨done, due', aligned', fun i member => (recorded i member).later step fun n held => ?_⟩
    obtain ⟨n', held', _, _, span⟩ := Sketch.extend_place p.symbols held
    exact ⟨n', held', span⟩

theorem Attains.aligned (of : t.IsOf g) (known : ∀ s ∈ tokens, s ∈ g.terminals)
    (attains : t.Attains tokens s) : s.input = tokens.drop s.position ++ [Symbol.endMark] ∧
      ∃ done due, s.sketch.Aligned tokens s.stack s.position done due ∧
        ∀ i ∈ done, t.Recorded tokens s i := by
  have input : ∀ {s}, t.Attains tokens s →
      s.input = tokens.drop s.position ++ [Symbol.endMark] ∧ Symbol.endMark ∉ s.stack := by
    intro s attains
    obtain ⟨c, draws, fed, reaches⟩ := attains.draws of
    obtain ⟨reads, _⟩ := reaches.reads of known
    rw [draws.input_eq, draws.position_eq, draws.stack_eq]
    exact ⟨reads.input_eq, fed.2⟩
  refine ⟨(input attains).1, ?_⟩
  induction attains with
  | start => exact ⟨[], [0], Sketch.ofRoot_aligned tokens t.start, by simp⟩
  | next before step ih =>
    obtain ⟨done, due, aligned, recorded⟩ := ih
    obtain ⟨unread, plain⟩ := input before
    exact aligned_step of before step unread plain aligned recorded

/-- The cursor, the sketch and the stack of a parse stay in step. -/
theorem attains_inStep (made : g.table = .ok t) (known : ∀ s ∈ tokens, s ∈ t.terminals)
    (attains : t.Attains tokens s) : t.InStep tokens s := by
  obtain ⟨_, _, _, of⟩ := Grammar.table_isOf made
  have declared := known
  rw [of.terminals_eq] at declared
  obtain ⟨unread, done, due, aligned, recorded⟩ := attains.aligned of declared
  have bare := aligned.frontier.bare
  have values := aligned.values
  have distinct := List.nodup_append.mp aligned.distinct
  have whole : s.stack = [] → due = [] := by
    intro empty
    simpa [empty] using values
  constructor
  case unread => exact unread
  case placed => exact aligned.placed
  case due =>
    intro left
    have some : due ≠ [] := by
      rintro rfl
      exact left (by simpa using values.symm)
    exact ⟨due, aligned.on_way some, distinct.2.1, fun i member => bare i (by simp [member]), values⟩
  case at_root => exact fun empty => aligned.at_root (whole empty)
  case leaf =>
    intro empty i n found childless
    obtain rfl := whole empty
    have inside := (aligned.placed.mem_frontier_iff aligned.frontier).mpr ⟨n, found, childless⟩
    rw [List.append_nil] at inside
    refine ⟨?_, recorded i inside⟩
    exact (aligned.tiles.values i inside n found).imp_left (known n.value)
  case tiled =>
    intro empty
    obtain rfl := whole empty
    have frontier := aligned.frontier
    rw [List.append_nil] at frontier
    exact ⟨done, frontier, distinct.1, fun i => aligned.placed.mem_frontier_iff frontier, aligned.tiles⟩

end Table

namespace Sample

theorem textbook_attains_inStep :
    (∃ s, textbookTable.Attains ["a", "c", "b"] s ∧ s.stack = ["A", "B", "b"] ∧
      textbookTable.InStep ["a", "c", "b"] s) ∧
    ∃ s, textbookTable.Attains ["a", "c", "b"] s ∧ s.stack = [] ∧ s.position = 3 ∧
      textbookTable.InStep ["a", "c", "b"] s := by
  have known : ∀ s ∈ (["a", "c", "b"] : List Symbol), s ∈ textbookTable.terminals := by decide
  have middle : ∃ s, textbookTable.Attains ["a", "c", "b"] s ∧ s.stack = ["A", "B", "b"] :=
    ⟨_, .next (.next .start rfl) rfl, rfl⟩
  have last : ∃ s, textbookTable.Attains ["a", "c", "b"] s ∧ s.stack = [] ∧ s.position = 3 :=
    ⟨_, .next (.next (.next (.next (.next (.next (.next .start rfl) rfl) rfl) rfl) rfl) rfl) rfl,
      rfl, rfl⟩
  obtain ⟨s, attains, stack⟩ := middle
  obtain ⟨s', attains', stack', position⟩ := last
  exact ⟨⟨s, attains, stack, Table.attains_inStep textbook_table known attains⟩, s', attains', stack',
    position, Table.attains_inStep textbook_table known attains'⟩

end Sample

end TopDown
