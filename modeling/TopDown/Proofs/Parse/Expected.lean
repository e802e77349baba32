import TopDown.Proofs.Parse.Trace
import TopDown.Proofs.Parse.Viable
import TopDown.Proofs.Prediction

namespace TopDown

/-- What can come after the tokens that are read: a terminal, with which a sentence goes on, or the
end mark if they are a sentence. -/
def Grammar.Continues (g : Grammar) (read : List Symbol) (x : Symbol) : Prop :=
  (x ∈ g.terminals ∧ ∃ rest, g.Sentence (read ++ x :: rest)) ∨
    (x = Symbol.endMark ∧ g.Sentence read)

def SyntaxError.Exact (g : Grammar) (tokens : List Symbol) (e : SyntaxError) : Prop :=
  ∀ x, x ∈ g.terminals ∨ x = Symbol.endMark →
    (x ∈ e.expected ↔ g.Continues (tokens.take e.position) x)

/-- Each token that is consumed sets anew what is due; the other actions leave it as it is. -/
def ActionRecord.turn (due : List Symbol) (r : ActionRecord) : List Symbol :=
  if r.action = .consume then r.stack.tail else due

def Table.Run.due (start : Symbol) (r : Run) : List Symbol :=
  r.records.foldl ActionRecord.turn [start]

namespace Grammar

variable {g : Grammar} {token x : Symbol} {due stack below : List Symbol}

def Offers (g : Grammar) : List Symbol → Symbol → Prop
  | [], x => x = Symbol.endMark
  | top :: _, x => g.Next [top] (g.Precedes top) x

/-- What stands after the top of the stack anywhere is what the skipped symbols begin with or what
comes after the top here. Under an empty stack the skipped symbols begin with nothing. -/
def Tells (g : Grammar) (skipped : List Symbol) : List Symbol → Prop
  | [] => ∀ x, x ∈ g.terminals → ¬ g.Begins skipped x
  | top :: below => ∀ x, x ∈ g.terminals ∨ x = Symbol.endMark →
    (g.Derives [top] [] ∧ g.Precedes top x ↔
      g.Begins skipped x ∨ (g.Derives [top] [] ∧ g.Next below (· = Symbol.endMark) x))

/-- While one token is next, the symbols that were due come off the stack one after the other: some
have come to nothing, and the next one may be under way to the token. -/
inductive Skips (g : Grammar) (token : Symbol) (due stack : List Symbol) : Prop
  | idle {skipped} (whole : due = skipped ++ stack) (vanish : g.Derives skipped [])
  | busy {skipped name rest pending} (whole : due = skipped ++ name :: rest)
    (now : stack = pending ++ rest) (more : pending ≠ []) (vanish : g.Derives skipped [])
    (nonterminal : name ∈ g.nonterminals) (derives : g.Derives [name] (Symbol.written pending))
    (next : g.Next (Symbol.written pending) (g.Precedes name) token)

theorem Skips.skip (plain : Symbol.empty ∉ due)
    (skips : g.Skips token due (Symbol.empty :: below)) : g.Skips token due below := by
  cases skips with
  | idle whole vanish => exact absurd (by simp [whole]) plain
  | @busy skipped name rest pending whole now more vanish nonterminal derives next =>
    obtain ⟨s, pending, rfl⟩ := List.exists_cons_of_ne_nil more
    obtain ⟨rfl, rfl⟩ := List.cons_eq_cons.mp now
    rw [Symbol.written_empty] at derives next
    by_cases last : pending = []
    · subst last
      have both : g.Derives (skipped ++ [name]) [] := vanish.append derives
      exact .idle (by simp [whole]) both
    · exact .busy whole rfl last vanish nonterminal derives next

theorem Skips.expand (separated : g.Separated) {p : Production} (rule : p ∈ g.productions)
    (predicts : g.Predicts p token) (skips : g.Skips token due (p.name :: below)) :
    g.Skips token due (p.symbols ++ below) := by
  have name := g.wellFormed.name_declared p rule
  have filled := g.wellFormed.symbols_ne_nil p rule
  cases skips with
  | idle whole vanish =>
    exact .busy whole rfl filled vanish name (Derives.of_production rule) predicts
  | @busy skipped root rest pending whole now more vanish nonterminal derives next =>
    obtain ⟨s, pending, rfl⟩ := List.exists_cons_of_ne_nil more
    obtain ⟨rfl, rfl⟩ := List.cons_eq_cons.mp now
    rw [Symbol.written_cons (name_ne_empty rule)] at derives next
    have expand : g.Derives [root] (p.body ++ Symbol.written pending) :=
      derives.trans (Derives.replace rule [] _)
    have next' : g.Next (p.body ++ Symbol.written pending) (g.Precedes root) token := by
      rw [next_append]
      rcases predicts with here | ⟨empty, precedes⟩
      · exact Or.inl here
      · -- The name comes to nothing before the token, so the token is not one it could begin with.
        refine Or.inr ⟨empty, ?_⟩
        rw [← List.singleton_append, next_append] at next
        rcases next with ⟨plain, begins⟩ | ⟨_, later⟩
        · have single := (Derives.of_production rule).trans empty
          exact absurd precedes (separated.not_precedes name single plain begins)
        · exact later
    rw [Production.body, ← Symbol.written_append] at expand next'
    exact .busy whole (by simp) (by simp [filled]) vanish nonterminal expand next'

theorem Skips.exists_skipped (skips : g.Skips token due stack)
    (plain : stack.head? ≠ some Symbol.empty) (none : ¬ g.Offers stack token) :
    ∃ skipped, due = skipped ++ stack ∧ g.Derives skipped [] := by
  cases skips with
  | idle whole vanish => exact ⟨_, whole, vanish⟩
  | @busy skipped name rest pending whole now more vanish nonterminal derives next =>
    obtain ⟨top, pending, rfl⟩ := List.exists_cons_of_ne_nil more
    subst now
    have other : top ≠ Symbol.empty := by simpa using plain
    rw [Symbol.written_cons other] at derives next
    have form : g.Derives [name] ([] ++ top :: Symbol.written pending) := derives
    rw [← List.singleton_append, next_append] at next
    exact absurd (next.mono (Precedes.of_form nonterminal form)) none

theorem next_iff {form : List Symbol} {T : Symbol → Prop} (plain : x ≠ Symbol.empty) :
    g.Next form T x ↔ g.Begins form x ∨ (g.Derives form [] ∧ T x) := by
  simp [Next, plain]

theorem tells_nil_iff {skipped : List Symbol} (vanish : g.Derives skipped []) :
    (∀ x, x ∈ g.terminals ∨ x = Symbol.endMark →
      (g.Offers [] x ↔ g.Next (skipped ++ []) (· = Symbol.endMark) x)) ↔ g.Tells skipped [] := by
  rw [List.append_nil]
  constructor
  · intro exact x terminal begins
    have next : g.Next skipped (· = Symbol.endMark) x :=
      Or.inl ⟨terminal_ne_empty terminal, begins⟩
    exact terminal_ne_endMark terminal ((exact x (Or.inl terminal)).mpr next)
  · intro tells x kind
    rw [next_iff (ne_empty_of_kind kind)]
    constructor
    · intro last
      exact Or.inr ⟨vanish, last⟩
    · intro next
      rcases next with begins | ⟨_, last⟩
      · exact kind.resolve_left fun terminal => tells x terminal begins
      · exact last

/-- What the top can begin with is offered and comes next. It is not among what trails the top, what
the skipped symbols begin with and what comes after the top, so these make the difference. -/
theorem Separated.tells_cons_iff (separated : g.Separated) {read skipped : List Symbol}
    {top : Symbol} (form : g.Derives [g.start] (read ++ skipped ++ top :: below))
    (vanish : g.Derives skipped []) :
    (∀ x, x ∈ g.terminals ∨ x = Symbol.endMark →
      (g.Offers (top :: below) x ↔ g.Next (skipped ++ top :: below) (· = Symbol.endMark) x)) ↔
      g.Tells skipped (top :: below) := by
  have declared := form.declared (declared_singleton g.start_mem) top (by simp)
  refine forall_congr' fun x => imp_congr_right fun kind => ?_
  have plain := ne_empty_of_kind kind
  have whole : g.Next (skipped ++ top :: below) (· = Symbol.endMark) x ↔ g.Begins skipped x ∨
      (g.Begins [top] x ∨ (g.Derives [top] [] ∧ g.Next below (· = Symbol.endMark) x)) := by
    rw [← List.singleton_append, next_append, next_iff plain, next_append, next_iff plain]
    simp [vanish]
  rw [Offers, next_iff plain, whole]
  by_cases first : g.Begins [top] x
  · have ahead : ¬ g.Begins skipped x := by
      intro begins
      have next : g.Next ([top] ++ below) (· = Symbol.endMark) x :=
        next_append.mpr (Or.inl ⟨plain, first⟩)
      exact separated.not_next form vanish plain begins next
    have trails : ¬ (g.Derives [top] [] ∧ g.Precedes top x) := by
      intro ⟨empty, precedes⟩
      have nonterminal := nonterminal_of_derives_nil declared empty
      exact separated.not_precedes nonterminal empty plain first precedes
    have after : ¬ (g.Derives [top] [] ∧ g.Next below (· = Symbol.endMark) x) :=
      fun ⟨empty, next⟩ => trails ⟨empty, precedes_of_next form next⟩
    have neither := not_or.mpr ⟨ahead, after⟩
    exact iff_of_true (iff_of_true (Or.inl first) (Or.inr (Or.inl first)))
      (iff_of_false trails neither)
  · simp [first]

theorem Separated.tells_iff (separated : g.Separated) {read skipped left : List Symbol}
    (form : g.Derives [g.start] (read ++ skipped ++ left)) (vanish : g.Derives skipped []) :
    (∀ x, x ∈ g.terminals ∨ x = Symbol.endMark →
      (g.Offers left x ↔ g.Next (skipped ++ left) (· = Symbol.endMark) x)) ↔
      g.Tells skipped left := by
  cases left with
  | nil => exact tells_nil_iff vanish
  | cons top below => exact separated.tells_cons_iff form vanish

end Grammar

variable {g : Grammar} {t : Table} {tokens due : List Symbol} {c c' : Scene} {action : Action}
  {e : SyntaxError} {x : Symbol}

namespace Scene

structure Turned (g : Grammar) (t : Table) (tokens due : List Symbol) (c : Scene) : Prop where
  skips : g.Skips (c.input.headD Symbol.endMark) due c.drawing.stack
  unmarked : Symbol.empty ∉ due
  below : Symbol.empty ∉ c.drawing.stack.tail
  again : ∃ drawing, drawing.stack = due ∧ ∀ later,
    Reaches t ⟨.growing t.start [], tokens.take c.position ++ later, 0⟩ ⟨drawing, later, c.position⟩

theorem initial_turned (of : t.IsOf g) (tokens : List Symbol) :
    (initial t tokens).Turned g t tokens [t.start] where
  skips := .idle rfl (Grammar.Derives.refl [])
  unmarked := by
    have plain := Grammar.nonterminal_ne_empty g.start_mem
    simpa [of.start_eq] using plain.symm
  below := by simp [initial]
  again := ⟨.growing t.start [], rfl, fun _ => Relation.ReflTransGen.refl⟩

theorem Turned.moves (of : t.IsOf g) (known : ∀ s ∈ tokens, s ∈ g.terminals)
    (reaches : (initial t tokens).Reaches t c) (turned : c.Turned g t tokens due)
    (moves : c.Moves t action c') : c'.Turned g t tokens ((c.record action).turn due) := by
  obtain ⟨reads, fed⟩ := reaches.reads of known
  obtain ⟨skips, unmarked, below, again⟩ := turned
  cases moves with
  | @skip frames token unread position =>
    have rest : Symbol.empty ∉ (Drawing.waiting frames).tail :=
      fun mark => below (List.mem_of_mem_tail mark)
    exact ⟨by simpa [ActionRecord.turn, record] using skips.skip unmarked, unmarked,
      by simpa using rest, again⟩
  | @consume frames token unread position plain =>
    have rest : Symbol.empty ∉ (Drawing.waiting frames).tail :=
      fun mark => below (List.mem_of_mem_tail mark)
    rcases next_token reads.input_eq with ⟨there, _⟩ | ⟨mark, _⟩
    · have onward : ∀ later,
          Reaches t ⟨.growing t.start [], tokens.take (position + 1) ++ later, 0⟩
            ⟨.resume frames (.node token position (position + 1) []), later, position + 1⟩ := by
        intro later
        have front := reaches.again of known rfl later
        rw [List.take_add_one, there, Option.toList_some, List.append_assoc]
        exact .tail front ⟨_, .consume plain⟩
      have fresh : g.Skips (unread.headD Symbol.endMark) (Drawing.waiting frames)
          (Drawing.waiting frames) := .idle rfl (Grammar.Derives.refl [])
      exact ⟨by simpa [ActionRecord.turn, record] using fresh, below, by simpa using rest,
        _, Drawing.stack_resume _ _, onward⟩
    · exact absurd mark.symm fed.top.1
  | @expand top frames token unread position row p first left plain other found cell symbols =>
    obtain ⟨rule, rfl, predicts⟩ := of.cell found cell
    have skips' := skips.expand of.separated rule predicts
    have rest : Symbol.empty ∉ left := by
      intro mark
      have alone := g.wellFormed.unmixed p rule (by simp [symbols, mark])
      rw [symbols] at alone
      simp [(List.cons_eq_cons.mp alone).2] at mark
    rw [symbols] at skips'
    exact ⟨skips', unmarked, by simpa [rest] using below, again⟩

theorem Turned.traces (of : t.IsOf g) (known : ∀ s ∈ tokens, s ∈ g.terminals)
    {records : List ActionRecord} (traces : c.Traces t records c')
    (reaches : (initial t tokens).Reaches t c) (turned : c.Turned g t tokens due) :
    c'.Turned g t tokens (records.foldl ActionRecord.turn due) := by
  induction traces generalizing due with
  | stop => exact turned
  | move moves _ ih =>
    exact ih (reaches.tail ⟨_, moves⟩) (turned.moves of known reaches moves)

theorem Turned.derives (made : g.table = .ok t) (turned : c.Turned g t tokens due)
    {word : List Symbol} (sentence : g.Sentence (tokens.take c.position ++ word)) :
    g.Derives due word := by
  obtain ⟨_, _, _, of⟩ := Grammar.table_isOf made
  obtain ⟨drawing, rfl, again⟩ := turned.again
  obtain ⟨tree, accepted⟩ := (Table.exists_accepted_iff made).mpr sentence
  have known : ∀ s ∈ tokens.take c.position ++ word, s ∈ t.terminals := by
    rw [of.terminals_eq]
    exact sentence.1
  obtain ⟨last, reaches, ends⟩ := Table.parse_spec made known
  rw [accepted] at ends
  have middle : (initial t (tokens.take c.position ++ word)).Reaches t
      ⟨drawing, word ++ [Symbol.endMark], c.position⟩ := by
    simpa [initial] using again (word ++ [Symbol.endMark])
  have fed := (middle.reads of sentence.1).2
  have derives := (middle.onward reaches ends).derives of ends fed
    (Grammar.IsWord.of_append sentence.1).2 rfl
  rwa [Symbol.written_eq_self turned.unmarked] at derives

theorem Turned.form (of : t.IsOf g) (known : ∀ s ∈ tokens, s ∈ g.terminals)
    (turned : c.Turned g t tokens due) :
    g.Derives [g.start] (tokens.take c.position ++ due) := by
  obtain ⟨drawing, rfl, again⟩ := turned.again
  have reaches := again [Symbol.endMark]
  have viable := Reaches.viable of (Grammar.IsWord.take known c.position) reaches
  have whole : (tokens.take c.position).take c.position = tokens.take c.position := by
    rw [List.take_take, Nat.min_self]
  rwa [Viable, whole, Symbol.written_eq_self turned.unmarked] at viable

theorem Turned.continues_iff (made : g.table = .ok t)
    (productive : ∀ s, s ∈ g.nonterminals → g.Productive s) (known : ∀ s ∈ tokens, s ∈ g.terminals)
    (turned : c.Turned g t tokens due) (kind : x ∈ g.terminals ∨ x = Symbol.endMark) :
    g.Continues (tokens.take c.position) x ↔ g.Next due (· = Symbol.endMark) x := by
  obtain ⟨_, _, _, of⟩ := Grammar.table_isOf made
  have form := turned.form of known
  have read : g.IsWord (tokens.take c.position) := Grammar.IsWord.take known c.position
  have sentence : ∀ {word}, g.IsWord word → g.Derives due word →
      g.Sentence (tokens.take c.position ++ word) := by
    intro word terminals derives
    exact ⟨read.append terminals, form.trans ((Grammar.Derives.refl _).append derives)⟩
  have declared : ∀ s ∈ due, s ∈ g.terminals ∨ s ∈ g.nonterminals :=
    fun s member => form.declared Grammar.start_declared s (by simp [member])
  rw [Grammar.next_iff (Grammar.ne_empty_of_kind kind)]
  constructor
  · intro continues
    rcases continues with ⟨terminal, rest, whole⟩ | ⟨mark, whole⟩
    · exact Or.inl (Or.inr ⟨kind, rest, turned.derives made whole⟩)
    · exact Or.inr ⟨turned.derives made (by rwa [List.append_nil]), mark⟩
  · intro next
    rcases next with (⟨mark, _⟩ | ⟨_, rest, derives⟩) | ⟨vanish, mark⟩
    · exact absurd mark (Grammar.ne_empty_of_kind kind)
    · have inside := derives.declared declared
      have terminal := Grammar.terminal_of_declared kind (inside x (by simp))
      obtain ⟨word, terminals, later⟩ :=
        Grammar.exists_word productive fun s member => inside s (List.mem_cons_of_mem x member)
      have onward := derives.trans ((Grammar.Derives.refl [x]).append later)
      exact Or.inl ⟨terminal, word, sentence (terminals.cons terminal) onward⟩
    · have whole := sentence Grammar.isWord_nil vanish
      exact Or.inr ⟨mark, by rwa [List.append_nil] at whole⟩

theorem Refuses.mem_expected (of : t.IsOf g) (refuses : c.Refuses t e)
    (declared : ∀ s ∈ Symbol.written c.drawing.stack, s ∈ g.terminals ∨ s ∈ g.nonterminals) :
    x ∈ e.expected ↔ g.Offers c.drawing.stack x := by
  cases refuses with
  | surplus more => simp [Grammar.Offers]
  | @mismatch top frames token unread position plain other unknown =>
    rw [Drawing.stack_growing, Symbol.written_cons plain] at declared
    have terminal := of.terminal_of_lookup_none (declared top (by simp)) unknown
    exact List.mem_singleton.trans (Grammar.next_terminal terminal).symm
  | noAlternative plain other found unfilled => exact of.mem_tokens found

theorem Refuses.not_offers (of : t.IsOf g) (refuses : c.Refuses t e)
    (declared : ∀ s ∈ Symbol.written c.drawing.stack, s ∈ g.terminals ∨ s ∈ g.nonterminals) :
    ¬ g.Offers c.drawing.stack e.token := by
  rw [← refuses.mem_expected of declared]
  cases refuses with
  | surplus more => simpa using more
  | mismatch plain other unknown => simpa using Ne.symm other
  | noAlternative plain other found unfilled =>
    rw [SymbolSet.mem_toList, Table.mem_tokens, unfilled]
    simp

theorem Refuses.stack_eq (refuses : c.Refuses t e) :
    e.stack = c.drawing.stack.reverse ∧ c.drawing.stack.head? ≠ some Symbol.empty := by
  cases refuses with
  | surplus more => simp
  | mismatch plain other unknown => simpa using plain
  | noAlternative plain other found unfilled => simpa using plain

end Scene

namespace Table

/-- Before an error some symbols that were due have come to nothing, and the others are on the stack.
Its list is right exactly if what stands after the top anywhere is what those symbols begin with or
what comes after the top here. -/
theorem expected_exact_iff (made : g.table = .ok t)
    (productive : ∀ s, s ∈ g.nonterminals → g.Productive s) (known : ∀ s ∈ tokens, s ∈ g.terminals)
    (rejected : t.parse tokens = .rejected e) :
    ∃ skipped left, e.stack = left.reverse ∧ (t.run tokens).due t.start = skipped ++ left ∧
      g.Derives skipped [] ∧ (e.Exact g tokens ↔ g.Tells skipped left) := by
  obtain ⟨_, _, _, of⟩ := Grammar.table_isOf made
  have known' : ∀ s ∈ tokens, s ∈ t.terminals := by rwa [of.terminals_eq]
  obtain ⟨c, traces, ends⟩ := run_traces made known'
  rw [rejected] at ends
  cases ends with
  | rejects refuses =>
    have start := Scene.initial_turned of tokens
    have turned : c.Turned g t tokens ((t.run tokens).due t.start) :=
      start.traces of known traces Relation.ReflTransGen.refl
    have declared := (traces.reaches.viable of known).declared
    obtain ⟨place, unread, input⟩ := refuses.next
    obtain ⟨stack, plain⟩ := refuses.stack_eq
    have skips := turned.skips
    rw [input, List.headD_cons] at skips
    obtain ⟨skipped, whole, vanish⟩ := skips.exists_skipped plain (refuses.not_offers of declared)
    refine ⟨skipped, c.drawing.stack, stack, whole, vanish, ?_⟩
    have form := turned.form of known
    rw [whole, ← List.append_assoc] at form
    rw [← of.separated.tells_iff form vanish]
    refine forall_congr' fun x => imp_congr_right fun kind => ?_
    rw [refuses.mem_expected of declared, place, turned.continues_iff made productive known kind,
      whole]

end Table

namespace Sample

def unfinished : SyntaxError := ⟨.noAlternative "A", 2, "$", ["b", "B", "c", "A"], ["a", "b", "c"]⟩

theorem textbook_unfinished : textbookTable.parse ["a", "a"] = .rejected unfinished :=
  Outcome.eq_rejected (by decide +kernel)

theorem textbook_expected_exact_iff :
    ∃ skipped left, ["b", "B", "c"] = left.reverse ∧
      (textbookTable.run ["a", "a", "b"]).due "S" = skipped ++ left ∧
      textbookGrammar.Derives skipped [] ∧
      (misplaced.Exact textbookGrammar ["a", "a", "b"] ↔ textbookGrammar.Tells skipped left) :=
  Table.expected_exact_iff textbook_table textbook_reduced.productive textbook_known
    textbook_misplaced

/-- After `a a` the list has a `b`, which no sentence has there. Once `A` has come to nothing because
of a `b`, the list has no `a`, although `A` could have begun with one. -/
theorem textbook_not_exact :
    textbookGrammar.table = .ok textbookTable ∧ textbookGrammar.Reduced ∧
      (∀ s ∈ ["a", "a", "b"], s ∈ textbookGrammar.terminals) ∧
      textbookTable.parse ["a", "a"] = .rejected unfinished ∧
      ¬ unfinished.Exact textbookGrammar ["a", "a"] ∧
      textbookTable.parse ["a", "a", "b"] = .rejected misplaced ∧
      ¬ misplaced.Exact textbookGrammar ["a", "a", "b"] := by
  refine ⟨textbook_table, textbook_reduced, textbook_known, textbook_unfinished, ?_,
    textbook_misplaced, ?_⟩
  · intro exact
    have terminal : "b" ∈ textbookGrammar.terminals := textbook_known "b" (by simp)
    have continues := (exact "b" (Or.inl terminal)).mp (by decide)
    rcases continues with ⟨_, rest, sentence⟩ | ⟨mark, _⟩
    · have longer : textbookGrammar.Sentence (["a", "a", "b"] ++ rest) := sentence
      have refused : textbookTable.parse (["a", "a", "b"] ++ rest) = .rejected misplaced :=
        Table.rejected_of_take textbook_table textbook_known textbook_misplaced rfl longer.1
      exact Table.not_sentence_of_rejected textbook_table refused longer
    · exact absurd mark (by decide)
  · intro exact
    have nested : textbookGrammar.Derives ["A"] ["a", "A", "c"] :=
      Grammar.Derives.of_production (p := ⟨"A", ["a", "A", "c"], 1⟩) (by decide +kernel)
    have twice := nested.trans ((nested.trans (textbook_A.context ["a"] ["c"])).context ["a"] ["c"])
    have whole : textbookGrammar.Derives ["S"] ["a", "a", "a", "c", "c", "c", "b"] :=
      textbook_S.trans ((twice.append textbook_B).context ["a"] ["b"])
    have word : ∀ s ∈ ["a", "a", "a", "c", "c", "c", "b"], s ∈ textbookGrammar.terminals := by
      decide +kernel
    have continues : textbookGrammar.Continues ["a", "a"] "a" :=
      Or.inl ⟨textbook_known "a" (by simp), ["c", "c", "c", "b"], word, whole⟩
    have shown := (exact "a" (Or.inl (textbook_known "a" (by simp)))).mpr continues
    exact absurd shown (by decide)

end Sample

end TopDown
