import TopDown.Proofs.Parse.Completeness

namespace TopDown

variable {g : Grammar} {t : Table} {tokens : List Symbol} {c c' : Scene} {action : Action}
  {e : SyntaxError}

namespace Scene

/-- What is read and what is due stand side by side in a form of the start symbol. -/
def Viable (g : Grammar) (tokens : List Symbol) (c : Scene) : Prop :=
  g.Derives [g.start] (tokens.take c.position ++ Symbol.written c.drawing.stack)

def Leftmost (g : Grammar) (tokens : List Symbol) (c : Scene) : Prop :=
  g.LeftDerives [g.start] (tokens.take c.position ++ Symbol.written c.drawing.stack)

theorem initial_leftmost (of : t.IsOf g) (tokens : List Symbol) :
    (initial t tokens).Leftmost g tokens := by
  have plain := Grammar.nonterminal_ne_empty g.start_mem
  simp [Leftmost, initial, of.start_eq, Symbol.written_cons plain, Grammar.LeftDerives.refl]

theorem Leftmost.moves (of : t.IsOf g) (known : ∀ s ∈ tokens, s ∈ g.terminals)
    (leftmost : c.Leftmost g tokens) (reads : c.Reads g tokens) (fed : c.Fed)
    (moves : c.Moves t action c') : c'.Leftmost g tokens := by
  obtain ⟨_, input, _⟩ := reads
  cases moves with
  | skip => simpa [Leftmost] using leftmost
  | @consume frames token unread position plain =>
    rcases next_token input with ⟨there, _⟩ | ⟨mark, _⟩
    · simpa [Leftmost, Symbol.written_cons plain, List.take_add_one, there] using leftmost
    · exact absurd mark.symm fed.top.1
  | @expand top frames token unread position row p first due plain other found cell symbols =>
    obtain ⟨rule, rfl, _⟩ := of.cell found cell
    have read : g.IsWord (tokens.take position) := Grammar.IsWord.take known position
    have expand := Grammar.LeftDerives.replace rule read (Symbol.written (Drawing.waiting frames))
    have form : g.LeftDerives [g.start] (tokens.take position ++ p.name ::
        Symbol.written (Drawing.waiting frames)) := by
      simpa [Leftmost, Symbol.written_cons plain] using leftmost
    simpa [Leftmost, Production.body, symbols, ← Symbol.written_append] using form.trans expand

theorem Reaches.leftmost (of : t.IsOf g) (known : ∀ s ∈ tokens, s ∈ g.terminals)
    (reaches : (initial t tokens).Reaches t c) : c.Leftmost g tokens := by
  induction reaches with
  | refl => exact initial_leftmost of tokens
  | tail before step ih =>
    obtain ⟨_, moves⟩ := step
    have reads := Reaches.reads of known before
    exact ih.moves of known reads.1 reads.2 moves

theorem Reaches.viable (of : t.IsOf g) (known : ∀ s ∈ tokens, s ∈ g.terminals)
    (reaches : (initial t tokens).Reaches t c) : c.Viable g tokens :=
  (reaches.leftmost of known).derives

theorem Reaches.again (of : t.IsOf g) (known : ∀ s ∈ tokens, s ∈ g.terminals)
    (reaches : (initial t tokens).Reaches t c) {token : Symbol} {unread : List Symbol}
    (input : c.input = token :: unread) (later : List Symbol) :
    Reaches t ⟨.growing t.start [], tokens.take c.position ++ token :: later, 0⟩
      ⟨c.drawing, token :: later, c.position⟩ := by
  obtain ⟨seen, whole, onward⟩ := reaches.reroute input
  have reads := (reaches.reads of known).1.input_eq
  have split : seen ++ c.input = tokens.take c.position ++ c.input := by
    calc seen ++ c.input = tokens ++ [Symbol.endMark] := by rw [input]; exact whole.symm
      _ = tokens.take c.position ++ c.input := by
        rw [reads, ← List.append_assoc, List.take_append_drop]
  obtain rfl := List.append_cancel_right split
  exact onward later

theorem Reaches.derives (of : t.IsOf g) (reaches : c.Reaches t c') {tree : Tree}
    (ends : c'.Ends t (.accepted tree)) (fed : c.Fed) {word : List Symbol} (terminals : g.IsWord word)
    (input : c.input = word ++ [Symbol.endMark]) :
    g.Derives (Symbol.written c.drawing.stack) word := by
  -- Backwards from the end: a move adds to what is derived just what it reads.
  induction reaches using Relation.ReflTransGen.head_induction_on generalizing word with
  | refl =>
    cases ends with
    | accepts =>
      cases word with
      | nil => exact Grammar.Derives.refl []
      | cons s word =>
        have same := (List.cons_eq_cons.mp input).1
        exact absurd same.symm (Grammar.terminal_ne_endMark (terminals s (by simp)))
  | head step _ ih =>
    obtain ⟨action, moves⟩ := step
    have fed' := fed.moves of moves
    cases moves with
    | skip => simpa using ih fed' terminals input
    | @consume frames token unread position plain =>
      cases word with
      | nil => exact absurd (List.cons_eq_cons.mp input).1.symm fed.top.1
      | cons s word =>
        obtain ⟨rfl, rest⟩ := List.cons_eq_cons.mp input
        have tail := ih fed' (fun r member => terminals r (by simp [member])) rest
        rw [Drawing.stack_growing, Symbol.written_cons plain]
        simpa using (Grammar.Derives.refl [token]).append tail
    | @expand top frames token unread position row p first due plain other found cell symbols =>
      obtain ⟨rule, rfl, _⟩ := of.cell found cell
      have expand := Grammar.Derives.replace rule [] (Symbol.written (Drawing.waiting frames))
      have tail := ih fed' terminals input
      rw [Drawing.stack_growing, Symbol.written_cons plain]
      refine expand.trans ?_
      simpa [Production.body, symbols, ← Symbol.written_append] using tail

theorem Viable.declared (viable : c.Viable g tokens) :
    ∀ s ∈ Symbol.written c.drawing.stack, s ∈ g.terminals ∨ s ∈ g.nonterminals :=
  fun s member => Grammar.Derives.declared viable Grammar.start_declared s (by simp [member])

/-- All that is due can be read as words, and these make the tokens that are read a sentence. -/
theorem Viable.exists_sentence (productive : ∀ s, s ∈ g.nonterminals → g.Productive s)
    (known : ∀ s ∈ tokens, s ∈ g.terminals) (viable : c.Viable g tokens) :
    ∃ rest, g.Sentence (tokens.take c.position ++ rest) := by
  obtain ⟨rest, word, derives⟩ := Grammar.exists_word productive viable.declared
  have read : g.IsWord (tokens.take c.position) := Grammar.IsWord.take known c.position
  exact ⟨rest, read.append word, viable.trans ((Grammar.Derives.refl _).append derives)⟩

theorem Refuses.next (refuses : c.Refuses t e) :
    e.position = c.position ∧ ∃ unread, c.input = e.token :: unread := by
  cases refuses <;> exact ⟨rfl, _, rfl⟩

theorem Refuses.reroute (refuses : c.Refuses t e) (later : List Symbol) :
    Refuses t ⟨c.drawing, e.token :: later, c.position⟩ e := by
  cases refuses with
  | surplus more => exact .surplus more
  | mismatch plain other unknown => exact .mismatch plain other unknown
  | noAlternative plain other found unfilled => exact .noAlternative plain other found unfilled

end Scene

namespace Table

theorem refuses_of_rejected (made : g.table = .ok t) (known : ∀ s ∈ tokens, s ∈ t.terminals)
    (rejected : t.parse tokens = .rejected e) :
    ∃ c, (Scene.initial t tokens).Reaches t c ∧ c.Refuses t e := by
  obtain ⟨c, reaches, ends⟩ := parse_spec made known
  rw [rejected] at ends
  cases ends with
  | rejects refuses => exact ⟨c, reaches, refuses⟩

theorem rejected_of_refuses (made : g.table = .ok t) (known : ∀ s ∈ tokens, s ∈ t.terminals)
    (reaches : (Scene.initial t tokens).Reaches t c) (refuses : c.Refuses t e) :
    t.parse tokens = .rejected e := by
  obtain ⟨_, reaches', ends⟩ := parse_spec made known
  exact (reaches'.unique ends reaches (.rejects refuses)).2

theorem rejected_of_take (made : g.table = .ok t) (known : ∀ s ∈ tokens, s ∈ t.terminals)
    (rejected : t.parse tokens = .rejected e) {later : List Symbol}
    (inside : tokens[e.position]? = some e.token)
    (known' : ∀ s ∈ tokens.take (e.position + 1) ++ later, s ∈ t.terminals) :
    t.parse (tokens.take (e.position + 1) ++ later) = .rejected e := by
  obtain ⟨_, _, _, of⟩ := Grammar.table_isOf made
  obtain ⟨c, reaches, refuses⟩ := refuses_of_rejected made known rejected
  obtain ⟨place, unread, input⟩ := refuses.next
  rw [of.terminals_eq] at known
  refine rejected_of_refuses made known' ?_ (refuses.reroute (later ++ [Symbol.endMark]))
  have start := reaches.again of known input (later ++ [Symbol.endMark])
  simpa [Scene.initial, List.take_add_one, place ▸ inside, place] using start

theorem exists_accepted_iff (made : g.table = .ok t) {word : List Symbol} :
    (∃ tree, t.parse word = .accepted tree) ↔ g.Sentence word := by
  constructor
  · rintro ⟨tree, accepted⟩
    obtain ⟨terminals, spells⟩ := spells_of_accepted made accepted
    obtain ⟨read, forest, same⟩ := spells.forest
    obtain rfl : word = read := by simpa using same
    have derives := forest.derives
    rw [Symbol.written_cons (Grammar.nonterminal_ne_empty g.start_mem)] at derives
    exact ⟨terminals, derives⟩
  · intro sentence
    obtain ⟨shape, forest⟩ := Grammar.Forest.exists_single sentence.1 sentence.2
    obtain ⟨tree, accepted, _⟩ := parse_of_forest made forest
    exact ⟨tree, accepted⟩

theorem not_sentence_of_rejected (made : g.table = .ok t) {word : List Symbol}
    (rejected : t.parse word = .rejected e) : ¬ g.Sentence word := by
  intro sentence
  obtain ⟨tree, accepted⟩ := (exists_accepted_iff made).mpr sentence
  rw [rejected] at accepted
  cases accepted

/-- Errors are reported at the right token: what stands before it is the beginning of a sentence,
and with it there is no such sentence. At the end of the input the tokens themselves are none. -/
theorem rejected_exactly (made : g.table = .ok t)
    (productive : ∀ s, s ∈ g.nonterminals → g.Productive s) (known : ∀ s ∈ tokens, s ∈ g.terminals)
    (rejected : t.parse tokens = .rejected e) :
    e.position ≤ tokens.length ∧ (∃ rest, g.Sentence (tokens.take e.position ++ rest)) ∧
      (e.position < tokens.length → tokens[e.position]? = some e.token ∧
        ∀ rest, ¬ g.Sentence (tokens.take (e.position + 1) ++ rest)) ∧
      (e.position = tokens.length → e.token = Symbol.endMark ∧ ¬ g.Sentence tokens) := by
  obtain ⟨_, _, _, of⟩ := Grammar.table_isOf made
  have known' : ∀ s ∈ tokens, s ∈ t.terminals := by rwa [of.terminals_eq]
  obtain ⟨c, reaches, refuses⟩ := refuses_of_rejected made known' rejected
  obtain ⟨place, unread, input⟩ := refuses.next
  have reads := (reaches.reads of known).1
  have next := next_token (input.symm.trans reads.input_eq)
  rw [← place] at next
  refine ⟨place ▸ reads.bound, place ▸ (reaches.viable of known).exists_sentence productive known,
    fun inside => ?_, fun atEnd => ?_⟩
  · have there : tokens[e.position]? = some e.token := by
      rcases next with ⟨there, _⟩ | ⟨_, all⟩
      · exact there
      · omega
    -- A sentence that goes on from there would be rejected with the same error.
    refine ⟨there, fun rest sentence => ?_⟩
    have terminals : ∀ s ∈ tokens.take (e.position + 1) ++ rest, s ∈ t.terminals := by
      rw [of.terminals_eq]
      exact sentence.1
    have rejected' := rejected_of_take made known' rejected there terminals
    exact not_sentence_of_rejected made rejected' sentence
  · have mark : e.token = Symbol.endMark := by
      rcases next with ⟨there, _⟩ | ⟨mark, _⟩
      · rw [atEnd, List.getElem?_eq_none (Nat.le_refl _)] at there
        cases there
      · exact mark
    exact ⟨mark, not_sentence_of_rejected made rejected⟩

end Table

namespace Sample

def misplaced : SyntaxError := ⟨.mismatch "c", 2, "b", ["b", "B", "c"], ["c"]⟩

theorem textbook_misplaced : textbookTable.parse ["a", "a", "b"] = .rejected misplaced :=
  Outcome.eq_rejected (by decide +kernel)

theorem textbook_known : ∀ s ∈ ["a", "a", "b"], s ∈ textbookGrammar.terminals := by decide +kernel

theorem textbook_rejected_exactly :
    textbookTable.parse ["a", "a", "b"] = .rejected misplaced ∧
      (∃ rest, textbookGrammar.Sentence (["a", "a"] ++ rest)) ∧
        ∀ rest, ¬ textbookGrammar.Sentence (["a", "a", "b"] ++ rest) := by
  obtain ⟨_, begins, inside, _⟩ := Table.rejected_exactly textbook_table textbook_reduced.productive
    textbook_known textbook_misplaced
  exact ⟨textbook_misplaced, begins, (inside (by decide)).2⟩

end Sample

end TopDown
