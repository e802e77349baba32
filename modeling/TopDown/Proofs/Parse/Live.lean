import TopDown.Proofs.Parse.Completeness
import TopDown.Proofs.Parse.Trace

namespace TopDown

variable {g : Grammar} {t : Table} {s x : Symbol} {p : Production} {due : List Symbol}
  {drawing : Drawing} {position : Nat}

theorem Grammar.Predicts.leftmost (reduced : g.Reduced) (rule : p ∈ g.productions)
    (predicts : g.Predicts p x) : ∃ w γ y, g.IsWord w ∧
      g.LeftDerives [g.start] (w ++ p.name :: γ) ∧ g.IsWord y ∧ g.Derives (p.body ++ γ) y ∧
        firstToken y = x := by
  rcases predicts with ⟨plain, begins⟩ | ⟨empty, precedes⟩
  · obtain ⟨left, right, reach⟩ := (reduced p.name (g.wellFormed.name_declared p rule)).1
    obtain ⟨w, γ, word, leftmost, _⟩ := leftmost_of_derives reduced reach
    have known := leftmost.derives.declared start_declared
    obtain ⟨y, wordY, derives, first⟩ :=
      begins.exists_word reduced rule plain fun s (inside : s ∈ γ) => known s (by simp [inside])
    exact ⟨w, γ, y, word, leftmost, wordY, derives, first⟩
  · obtain ⟨w, γ, y, word, leftmost, wordY, derives, first⟩ := precedes.leftmost reduced
    exact ⟨w, γ, y, word, leftmost, wordY, empty.append derives, first⟩

namespace Scene

theorem reaches_top (t : Table) (token : Symbol) (unread : List Symbol) (position : Nat)
    (stack : Symbol.written drawing.stack = s :: due) :
    ∃ frames, Symbol.written (Drawing.waiting frames) = due ∧
      Reaches t ⟨drawing, token :: unread, position⟩
        ⟨.growing s frames, token :: unread, position⟩ := by
  induction symbols : drawing.stack generalizing drawing with
  | nil =>
    rw [symbols] at stack
    cases stack
  | cons top below ih =>
    cases drawing with
    | complete tree => cases symbols
    | growing r frames =>
      obtain ⟨rfl, rfl⟩ := List.cons_eq_cons.mp symbols
      by_cases mark : r = Symbol.empty
      · subst mark
        rw [Drawing.stack_growing, Symbol.written_empty] at stack
        have resumed := Drawing.stack_resume frames (.node Symbol.empty position position [])
        obtain ⟨frames', later, reaches⟩ := ih (resumed ▸ stack) resumed
        exact ⟨frames', later, Relation.ReflTransGen.head ⟨_, .skip⟩ reaches⟩
      · rw [Drawing.stack_growing, Symbol.written_cons mark] at stack
        obtain ⟨rfl, later⟩ := List.cons_eq_cons.mp stack
        exact ⟨frames, later, Relation.ReflTransGen.refl⟩

theorem reaches_read (t : Table) {read : List Symbol} (unread : List Symbol) (position : Nat)
    (word : g.IsWord read) (stack : Symbol.written drawing.stack = read ++ due) :
    ∃ drawing' : Drawing, Symbol.written drawing'.stack = due ∧
      Reaches t ⟨drawing, read ++ unread, position⟩
        ⟨drawing', unread, position + read.length⟩ := by
  induction read generalizing drawing position with
  | nil => exact ⟨drawing, stack, Relation.ReflTransGen.refl⟩
  | cons token read ih =>
    have plain := Grammar.terminal_ne_empty (word token List.mem_cons_self)
    have rest : g.IsWord read := fun r member => word r (List.mem_cons_of_mem token member)
    obtain ⟨frames, later, skips⟩ := reaches_top t token (read ++ unread) position stack
    rw [← Drawing.stack_resume frames (.node token position (position + 1) [])] at later
    obtain ⟨drawing', stack', reads⟩ := ih (position + 1) rest later
    refine ⟨drawing', stack', skips.trans ?_⟩
    rw [List.length_cons, Nat.add_comm read.length, ← Nat.add_assoc]
    exact Relation.ReflTransGen.head ⟨_, .consume plain⟩ reads

theorem reaches_through (of : t.IsOf g) (rule : p ∈ g.productions) {frames : List Frame}
    {read word : List Symbol} (body : p.body ++ Symbol.written (Drawing.waiting frames) =
      read ++ s :: due) (isRead : g.IsWord read) (isWord : g.IsWord word)
    (selects : g.Predicts p (firstToken (read ++ word))) (position : Nat) :
    ∃ frames', Symbol.written (Drawing.waiting frames') = due ∧
      Reaches t ⟨.growing p.name frames, read ++ word ++ [Symbol.endMark], position⟩
        ⟨.growing s frames', word ++ [Symbol.endMark], position + read.length⟩ := by
  obtain ⟨first, later, symbols, moves⟩ :=
    Moves.of_predicts of rule (isRead.append isWord) selects frames position
  have stack : Symbol.written (Drawing.growing first (⟨p.name, [], later⟩ :: frames)).stack =
      read ++ s :: due := by
    rw [← body, Production.body, symbols]
    simp [← Symbol.written_append]
  obtain ⟨drawing, stack', reads⟩ :=
    reaches_read t (word ++ [Symbol.endMark]) position isRead stack
  obtain ⟨unread, input⟩ := exists_unread word
  obtain ⟨frames', waits, skips⟩ :=
    reaches_top t (firstToken word) unread (position + read.length) stack'
  rw [← input] at skips
  rw [List.append_assoc] at moves ⊢
  exact ⟨frames', waits, Relation.ReflTransGen.head ⟨_, moves⟩ (reads.trans skips)⟩

end Scene

/-- The machine follows each leftmost derivation to the name that it rewrites next, as long as the
input goes on with a word that the rest of the form derives. -/
theorem Grammar.LeftDerives.reaches (of : t.IsOf g) {form : List Symbol}
    (left : g.LeftDerives [g.start] form) {read word : List Symbol}
    (whole : form = read ++ s :: due) (nonterminal : s ∈ g.nonterminals) (isRead : g.IsWord read)
    (isWord : g.IsWord word) (derives : g.Derives (s :: due) word) :
    ∃ frames, Symbol.written (Drawing.waiting frames) = due ∧
      (Scene.initial t (read ++ word)).Reaches t
        ⟨.growing s frames, word ++ [Symbol.endMark], read.length⟩ := by
  induction left generalizing read word s due with
  | refl =>
    obtain ⟨rfl, rfl, rfl⟩ := singleton_eq_append_cons whole
    refine ⟨[], rfl, ?_⟩
    rw [Scene.initial, of.start_eq]
    exact Relation.ReflTransGen.refl
  | tail before step ih =>
    obtain ⟨rule, isFront, right⟩ := step
    rename_i p front
    rw [List.append_assoc] at whole
    rcases append_eq_append_cons whole with ⟨rest, rfl, _⟩ | ⟨rest, rfl, body⟩
    · exact absurd nonterminal (g.wellFormed.disjoint s (isFront s (by simp)))
    -- The part of the word behind the last rewriting was not read yet where that one took place.
    · have isRest : g.IsWord rest := isRead.of_append.2
      have further : g.Derives (p.body ++ right) (rest ++ word) := by
        rw [body]
        exact (Derives.refl rest).append derives
      have expand : g.Derives (p.name :: right) (rest ++ word) :=
        (Derives.replace rule [] right).trans further
      obtain ⟨frames, rfl, reaches⟩ := ih rfl (g.wellFormed.name_declared p rule) isFront
        (isRest.append isWord) expand
      have selects := predicts_firstToken (isRest.append isWord) (LeftDerives.derives before) further
      obtain ⟨frames', waits, onward⟩ :=
        Scene.reaches_through of rule body isRest isWord selects front.length
      rw [List.append_assoc, List.length_append]
      exact ⟨frames', waits, reaches.trans onward⟩

namespace Table

/-- A cell is filled with a production exactly if the run on some sentence expands its nonterminal
by that production while its token is next. -/
theorem lookup_iff_expanded (made : g.table = .ok t) (reduced : g.Reduced) (s x : Symbol)
    (p : Production) : t.lookup s x = .ok (some p) ↔
      ∃ word, g.Sentence word ∧ ∃ r ∈ (t.run word).records,
        r.action = .expand p ∧ r.token = x ∧ r.stack.head? = some s := by
  obtain ⟨_, _, _, of⟩ := Grammar.table_isOf made
  have known : ∀ word, g.IsWord word → ∀ token ∈ word, token ∈ t.terminals := by
    intro word isWord
    rw [of.terminals_eq]
    exact isWord
  constructor
  · intro held
    obtain ⟨rule, rfl, predicts⟩ := of.lookup_iff.mp held
    obtain ⟨read, γ, word, isRead, left, isWord, derives, rfl⟩ := predicts.leftmost reduced rule
    have expand := (Grammar.Derives.replace rule [] γ).trans derives
    obtain ⟨frames, _, reaches⟩ := left.reaches of rfl (g.wellFormed.name_declared p rule) isRead
      isWord expand
    obtain ⟨first, due, _, moves⟩ :=
      Scene.Moves.of_predicts of rule isWord predicts frames read.length
    have sentence : g.Sentence (read ++ word) :=
      ⟨isRead.append isWord, left.derives.trans ((Grammar.Derives.refl read).append expand)⟩
    have recorded := (mem_records_iff made (known _ sentence.1)).mpr ⟨_, _, _, reaches, moves, rfl⟩
    refine ⟨read ++ word, sentence, _, recorded, rfl, ?_, rfl⟩
    obtain ⟨unread, input⟩ := exists_unread word
    simp [Scene.record, input]
  · rintro ⟨word, sentence, r, member, expands, token, top⟩
    obtain ⟨c, action, c', _, moves, rfl⟩ := (mem_records_iff made (known _ sentence.1)).mp member
    cases moves with
    | skip => cases expands
    | consume => cases expands
    | expand _ _ found cell =>
      cases expands
      cases token
      cases top
      exact of.lookup_iff.mpr (of.cell found cell)

end Table

namespace Sample

theorem textbook_expanded : ∃ word, textbookGrammar.Sentence word ∧
    ∃ r ∈ (textbookTable.run word).records,
      r.action = .expand ⟨"A", [Symbol.empty], 2⟩ ∧ r.token = "c" ∧ r.stack.head? = some "A" :=
  (Table.lookup_iff_expanded textbook_table textbook_reduced "A" "c" ⟨"A", [Symbol.empty], 2⟩).mp
    (by rfl)

end Sample

end TopDown
