import TopDown.Proofs.Parse.Expected
import TopDown.Proofs.Parse.Integrity

namespace TopDown

/-- What has been read is the beginning of the tokens, and with what is due it is a form that comes
about by leftmost steps. -/
structure MachineState.Certifies (g : Grammar) (tokens : List Symbol) (s : MachineState) : Prop where
  bound : s.position ≤ tokens.length
  input_eq : s.input = tokens.drop s.position ++ [Symbol.endMark]
  leftmost : g.LeftDerives [g.start] (tokens.take s.position ++ Symbol.written s.stack)

namespace SyntaxError

/-- Why there is an error when these symbols are due, the top of the stack first: there are none and
tokens are left, or the top is another terminal than the token, or it is a nonterminal that neither
begins with the token nor, if it can be empty, has the token after it. -/
inductive Arises (g : Grammar) (a : Analysis) (tokens : List Symbol) (e : SyntaxError) :
    List Symbol → Prop
  | surplus (cause : e.cause = .surplus) (left : e.position < tokens.length) :
    Arises g a tokens e []
  | mismatch {top below} (cause : e.cause = .mismatch top) (terminal : top ∈ g.terminals)
    (other : top ≠ e.token) : Arises g a tokens e (top :: below)
  | noAlternative {name below first follow} (cause : e.cause = .noAlternative name)
    (nonterminal : name ∈ g.nonterminals) (begins : a.firsts.find name = .ok first)
    (precedes : a.follows.find name = .ok follow) (starts : e.token ∉ first)
    (trails : Symbol.empty ∈ first → e.token ∉ follow) : Arises g a tokens e (name :: below)

/-- The token is the one at the position, which is the end mark after all tokens. What stands before it
makes up such a form with the stack, and the token does not suit the top. -/
structure Certifies (g : Grammar) (a : Analysis) (tokens : List Symbol) (e : SyntaxError) :
    Prop where
  bound : e.position ≤ tokens.length
  next : (tokens ++ [Symbol.endMark])[e.position]? = some e.token
  leftmost : g.LeftDerives [g.start] (tokens.take e.position ++ Symbol.written e.stack.reverse)
  arises : e.Arises g a tokens e.stack.reverse

end SyntaxError

variable {g : Grammar} {a : Analysis} {t : Table} {tokens : List Symbol} {c : Scene}
  {s : MachineState} {e : SyntaxError}

theorem Analysis.IsOf.next_iff (of : a.IsOf g) {name x : Symbol} (nonterminal : name ∈ g.nonterminals)
    (plain : x ≠ Symbol.empty) : ∃ first follow, a.firsts.find name = .ok first ∧
      a.follows.find name = .ok follow ∧ (g.Next [name] (g.Precedes name) x ↔
        x ∈ first ∨ (Symbol.empty ∈ first ∧ x ∈ follow)) := by
  obtain ⟨first, begins⟩ := of.first.defines name (Or.inr nonterminal)
  obtain ⟨follow, precedes⟩ := of.follow.defines name nonterminal
  have starts : ∀ y, g.Begins [name] y ↔ y ∈ first := fun y =>
    (of.first.has_iff name (Or.inr (Or.inl nonterminal)) y).symm.trans (Family.has_iff begins y)
  have trails : g.Precedes name x ↔ x ∈ follow :=
    (of.follow.has_iff name nonterminal x).symm.trans (Family.has_iff precedes x)
  refine ⟨first, follow, begins, precedes, ?_⟩
  simp [Grammar.Next, ← Grammar.begins_empty, starts, trails, plain]

theorem MachineState.Draws.certifies (draws : s.Draws c) (reads : c.Reads g tokens)
    (leftmost : c.Leftmost g tokens) : s.Certifies g tokens where
  bound := draws.position_eq ▸ reads.bound
  input_eq := by rw [draws.input_eq, draws.position_eq, reads.input_eq]
  leftmost := by
    rw [draws.position_eq, draws.stack_eq]
    exact leftmost

namespace Scene

theorem Refuses.token_at (refuses : c.Refuses t e) (reads : c.Reads g tokens) :
    (tokens ++ [Symbol.endMark])[e.position]? = some e.token := by
  obtain ⟨place, unread, input⟩ := refuses.next
  have whole : (tokens ++ [Symbol.endMark]).drop c.position = e.token :: unread := by
    rw [List.drop_append_of_le_length reads.bound, ← reads.input_eq, input]
  rw [place, ← List.head?_drop, whole, List.head?_cons]

theorem Refuses.arises (of : t.IsOf g) (analysed : a.IsOf g) (refuses : c.Refuses t e)
    (reads : c.Reads g tokens) (known : ∀ s ∈ tokens, s ∈ g.terminals)
    (declared : ∀ s ∈ Symbol.written c.drawing.stack, s ∈ g.terminals ∨ s ∈ g.nonterminals) :
    e.Arises g a tokens c.drawing.stack := by
  have member := List.mem_of_getElem? (refuses.token_at reads)
  cases refuses with
  | surplus more =>
    rcases next_token reads.input_eq with ⟨there, _⟩ | ⟨mark, _⟩
    · exact .surplus rfl (List.getElem?_eq_some_iff.mp there).1
    · exact absurd mark more
  | @mismatch top frames token unread position plain other unknown =>
    rw [Drawing.stack_growing, Symbol.written_cons plain] at declared
    have terminal := of.terminal_of_lookup_none (declared top (by simp)) unknown
    exact .mismatch rfl terminal other
  | @noAlternative name frames token unread position row plain other found unfilled =>
    have nonterminal := of.lookup_eq_some found
    have kind : token ∈ g.terminals ∨ token = Symbol.endMark := by
      rcases List.mem_append.mp member with inside | last
      · exact Or.inl (known token inside)
      · exact Or.inr (List.mem_singleton.mp last)
    obtain ⟨first, follow, begins, precedes, next⟩ :=
      analysed.next_iff nonterminal (Grammar.ne_empty_of_kind kind)
    -- The cell is empty, so the token cannot come next where the name is due.
    have never : ¬ g.Next [name] (g.Precedes name) token := by
      rw [← of.mem_tokens found, Table.mem_tokens, unfilled]
      simp
    rw [next, not_or, not_and] at never
    exact .noAlternative rfl nonterminal begins precedes never.1 never.2

theorem Refuses.certifies (of : t.IsOf g) (analysed : a.IsOf g) (refuses : c.Refuses t e)
    (known : ∀ s ∈ tokens, s ∈ g.terminals) (reaches : (initial t tokens).Reaches t c) :
    e.Certifies g a tokens := by
  have reads := (reaches.reads of known).1
  have leftmost := reaches.leftmost of known
  have place := refuses.next.1
  have stack : e.stack.reverse = c.drawing.stack := by
    rw [refuses.stack_eq.1, List.reverse_reverse]
  refine ⟨place ▸ reads.bound, refuses.token_at reads, ?_, ?_⟩
  · rw [place, stack]
    exact leftmost
  · rw [stack]
    exact refuses.arises of analysed reads known (reaches.viable of known).declared

end Scene

namespace Table

/-- An error depends on the tokens up to the offending one only. -/
theorem rejected_of_take_eq {u v : List Symbol} (made : g.table = .ok t)
    (known : ∀ s ∈ u, s ∈ g.terminals) (known' : ∀ s ∈ v, s ∈ g.terminals)
    (rejected : t.parse u = .rejected e) (inside : e.position < u.length)
    (same : v.take (e.position + 1) = u.take (e.position + 1)) : t.parse v = .rejected e := by
  obtain ⟨_, _, _, of⟩ := Grammar.table_isOf made
  rw [← of.terminals_eq] at known known'
  obtain ⟨c, reaches, refuses⟩ := refuses_of_rejected made known rejected
  have there : u[e.position]? = some e.token := by
    have next := refuses.token_at (reaches.reads of (of.terminals_eq ▸ known)).1
    rwa [List.getElem?_append_left inside] at next
  have whole : v = u.take (e.position + 1) ++ v.drop (e.position + 1) := by
    rw [← same, List.take_append_drop]
  rw [whole] at known' ⊢
  exact rejected_of_take made known rejected there known'

/-- The stack of a run certifies a leftmost derivation, and so does the stack of an error, which does
not go on with the token there. -/
theorem stack_certifies (made : g.table = .ok t) (known : ∀ s ∈ tokens, s ∈ g.terminals) :
    (∀ s, t.Attains tokens s → s.Certifies g tokens) ∧
      ∃ a, g.analysis = .ok a ∧ ∀ e, t.parse tokens = .rejected e → e.Certifies g a tokens := by
  obtain ⟨_, _, _, of⟩ := Grammar.table_isOf made
  obtain ⟨a, analysed, isOf⟩ := Analysis.analysis_ok g
  refine ⟨fun s attains => ?_, a, analysed, fun e rejected => ?_⟩
  · obtain ⟨c, draws, _, reaches⟩ := attains.draws of
    exact draws.certifies (reaches.reads of known).1 (reaches.leftmost of known)
  · have known' : ∀ s ∈ tokens, s ∈ t.terminals := by rwa [of.terminals_eq]
    obtain ⟨c, reaches, refuses⟩ := refuses_of_rejected made known' rejected
    exact refuses.certifies of isOf known reaches

end Table

namespace Sample

theorem textbook_rejected_of_take_eq :
    textbookTable.parse ["a", "a", "b"] = .rejected misplaced ∧
      textbookTable.parse ["a", "a", "b", "c", "b"] = .rejected misplaced := by
  have known : ∀ s ∈ ["a", "a", "b", "c", "b"], s ∈ textbookGrammar.terminals := by decide +kernel
  exact ⟨textbook_misplaced, Table.rejected_of_take_eq textbook_table textbook_known known
    textbook_misplaced (by decide) rfl⟩

theorem textbook_stack_certifies :
    (∃ s, textbookTable.Attains ["a", "a", "b"] s ∧ s.position = 1 ∧ s.stack = ["A", "B", "b"] ∧
      s.Certifies textbookGrammar ["a", "a", "b"]) ∧
    textbookTable.parse ["a", "a", "b"] = .rejected misplaced ∧
    ∃ a, textbookGrammar.analysis = .ok a ∧ misplaced.Certifies textbookGrammar a ["a", "a", "b"] := by
  obtain ⟨states, a, analysed, errors⟩ := Table.stack_certifies textbook_table textbook_known
  have expand : textbookTable.step (textbookTable.initialState ["a", "a", "b"]) =
      .next ⟨["S"], "a", .expand ⟨"S", ["a", "A", "B", "b"], 0⟩⟩
        ⟨["a", "A", "B", "b"], ["a", "a", "b", "$"], 0,
          (Sketch.ofRoot "S").extend ["a", "A", "B", "b"]⟩ := rfl
  obtain ⟨sketch, consume⟩ : ∃ sketch, textbookTable.step ⟨["a", "A", "B", "b"],
      ["a", "a", "b", "$"], 0, (Sketch.ofRoot "S").extend ["a", "A", "B", "b"]⟩ =
      .next ⟨["a", "A", "B", "b"], "a", .consume⟩ ⟨["A", "B", "b"], ["a", "b", "$"], 1, sketch⟩ :=
    ⟨_, rfl⟩
  have attained := Table.Attains.next (.next .start expand) consume
  exact ⟨⟨_, attained, rfl, rfl, states _ attained⟩, textbook_misplaced, a, analysed,
    errors _ textbook_misplaced⟩

end Sample

end TopDown
