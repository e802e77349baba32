import TopDown.Proofs.DerivationTree
import TopDown.Proofs.Table.Filling
import TopDown.Sample

namespace TopDown

def firstToken (word : List Symbol) : Symbol := word.headD Symbol.endMark

namespace Grammar

/-- Two productions of the leftmost name that lead to words with the same first token are one. -/
def IsLL1 (g : Grammar) : Prop :=
  ∀ p ∈ g.productions, ∀ q ∈ g.productions, p.name = q.name →
    ∀ w x y γ, g.IsWord w → g.IsWord x → g.IsWord y →
      g.LeftDerives [g.start] (w ++ p.name :: γ) →
        g.Derives (p.body ++ γ) x → g.Derives (q.body ++ γ) y →
          firstToken x = firstToken y → p = q

/-- Each nonterminal stands in a form of the start symbol and derives a word. -/
def Reduced (g : Grammar) : Prop :=
  ∀ s, s ∈ g.nonterminals → g.Reachable s ∧ g.Productive s

variable {g : Grammar}

theorem predicts_firstToken {p : Production} {left γ x : List Symbol} (word : g.IsWord x)
    (form : g.Derives [g.start] (left ++ p.name :: γ)) (derives : g.Derives (p.body ++ γ) x) :
    g.Predicts p (firstToken x) := by
  obtain ⟨u, v, rfl, first, rest⟩ := derives.split
  have words := word.of_append
  cases u with
  | cons t u =>
    have terminal : t ∈ g.terminals := words.1 t (by simp)
    exact Or.inl ⟨terminal_ne_empty terminal, Or.inr ⟨Or.inl terminal, u, first⟩⟩
  | nil =>
    have after : g.Derives [g.start] (left ++ p.name :: v) :=
      form.trans ((Derives.refl left).append ((Derives.refl [p.name]).append rest))
    refine Or.inr ⟨first, ?_⟩
    cases v with
    | nil => exact Or.inr ⟨rfl, left, after⟩
    | cons t v => exact Or.inl ⟨words.2 t (by simp), g.start, g.start_mem, left, v, after⟩

theorem Separated.isLL1 (separated : g.Separated) : g.IsLL1 := by
  intro p hp q hq name w x y γ _ wordX wordY left derivesX derivesY same
  have predictsP := predicts_firstToken wordX left.derives derivesX
  have predictsQ := predicts_firstToken wordY (name ▸ left.derives) derivesY
  exact separated p hp q hq name _ predictsP (same ▸ predictsQ)

theorem start_declared : ∀ s ∈ [g.start], s ∈ g.terminals ∨ s ∈ g.nonterminals :=
  declared_singleton g.start_mem

theorem Reduced.productive (reduced : g.Reduced) : ∀ s, s ∈ g.nonterminals → g.Productive s :=
  fun s member => (reduced s member).2

theorem exists_word (productive : ∀ s, s ∈ g.nonterminals → g.Productive s) {form : List Symbol}
    (declared : ∀ s ∈ form, s ∈ g.terminals ∨ s ∈ g.nonterminals) :
    ∃ word, g.IsWord word ∧ g.Derives form word := by
  induction form with
  | nil => exact ⟨[], isWord_nil, Derives.refl []⟩
  | cons s form ih =>
    obtain ⟨rest, wordRest, derivesRest⟩ := ih fun t member => declared t (by simp [member])
    rcases declared s (by simp) with terminal | nonterminal
    · exact ⟨s :: rest, wordRest.cons terminal, (Derives.refl [s]).append derivesRest⟩
    · obtain ⟨first, wordFirst, derivesFirst⟩ := productive s nonterminal
      exact ⟨first ++ rest, wordFirst.append wordRest, derivesFirst.append derivesRest⟩

theorem LeftDerives.before {u v : List Symbol} (h : g.LeftDerives u v) (right : List Symbol) :
    g.LeftDerives (u ++ right) (v ++ right) := by
  induction h with
  | refl => exact LeftDerives.refl _
  | tail _ step ih =>
    refine ih.trans ?_
    obtain ⟨member, read, after⟩ := step
    simpa using LeftDerives.replace member read (after ++ right)

theorem exists_leftDerives (reduced : g.Reduced) {form : List Symbol}
    (declared : ∀ s ∈ form, s ∈ g.terminals ∨ s ∈ g.nonterminals) (rest : List Symbol) :
    ∃ w, g.IsWord w ∧ g.LeftDerives (form ++ rest) (w ++ rest) := by
  obtain ⟨w, word, derives⟩ := exists_word reduced.productive declared
  obtain ⟨_, forest⟩ := Forest.of_derives word derives
  have plain : Symbol.empty ∉ form := by
    intro mark
    rcases declared _ mark with terminal | nonterminal
    · exact terminal_ne_empty terminal rfl
    · exact nonterminal_ne_empty nonterminal rfl
  have left := forest.leftDerives rest
  rw [Symbol.written_eq_self plain] at left
  exact ⟨w, word, left⟩

/-- A symbol in a derived form is also met in a leftmost derivation, with what stands after it still
to be derived. -/
theorem Context.leftmost (reduced : g.Reduced) {form left right : List Symbol} {s : Symbol}
    (context : g.Context form left s right)
    (declared : ∀ t ∈ form, t ∈ g.terminals ∨ t ∈ g.nonterminals) :
    ∃ w γ, g.IsWord w ∧ g.LeftDerives form (w ++ s :: γ) ∧ g.Derives γ right := by
  induction context with
  | @here before after _ _ s _ last =>
    have known : ∀ t ∈ before, t ∈ g.terminals ∨ t ∈ g.nonterminals :=
      fun t inside => declared t (by simp [inside])
    obtain ⟨w, word, left⟩ := exists_leftDerives reduced known (s :: after)
    exact ⟨w, after, word, left, last⟩
  | @within before after _ right inner outer s p member _ last _ ih =>
    have known : ∀ t ∈ before, t ∈ g.terminals ∨ t ∈ g.nonterminals :=
      fun t inside => declared t (by simp [inside])
    obtain ⟨w, word, left⟩ := exists_leftDerives reduced known (p.name :: after)
    obtain ⟨v, γ, wordV, leftV, derives⟩ := ih fun t inside => mem_body member inside
    refine ⟨w ++ v, γ ++ after, word.append wordV, ?_, derives.append last⟩
    have expand := LeftDerives.replace member word after
    have inside := (leftV.before after).after word
    have whole := left.trans (expand.trans (by simpa using inside))
    simpa using whole

theorem leftmost_of_derives (reduced : g.Reduced) {left right : List Symbol} {s : Symbol}
    (derives : g.Derives [g.start] (left ++ s :: right)) :
    ∃ w γ, g.IsWord w ∧ g.LeftDerives [g.start] (w ++ s :: γ) ∧ g.Derives γ right :=
  (Context.of_derives derives).leftmost reduced start_declared

theorem Precedes.leftmost (reduced : g.Reduced) {s t : Symbol} (precedes : g.Precedes s t) :
    ∃ w γ x, g.IsWord w ∧ g.LeftDerives [g.start] (w ++ s :: γ) ∧ g.IsWord x ∧ g.Derives γ x ∧
      firstToken x = t := by
  rcases precedes with ⟨terminal, root, nonterminal, left, right, derives⟩ | ⟨mark, left, derives⟩
  · obtain ⟨front, back, reach⟩ := (reduced root nonterminal).1
    have whole : g.Derives [g.start] ((front ++ left) ++ s :: (t :: right ++ back)) := by
      refine reach.trans ?_
      simpa using derives.context front back
    have known : ∀ u ∈ (right ++ back), u ∈ g.terminals ∨ u ∈ g.nonterminals := by
      intro u member
      refine whole.declared start_declared u ?_
      simp only [List.mem_append, List.mem_cons] at member ⊢
      tauto
    obtain ⟨w, γ, word, leftmost, rest⟩ := leftmost_of_derives reduced whole
    obtain ⟨x, wordX, derivesX⟩ := exists_word reduced.productive known
    refine ⟨w, γ, t :: x, word, leftmost, wordX.cons terminal, rest.trans ?_, rfl⟩
    simpa using (Derives.refl [t]).append derivesX
  · have whole : g.Derives [g.start] (left ++ s :: []) := derives
    obtain ⟨w, γ, word, leftmost, rest⟩ := leftmost_of_derives reduced whole
    exact ⟨w, γ, [], word, leftmost, isWord_nil, rest, mark.symm⟩

theorem Begins.exists_word (reduced : g.Reduced) {p : Production} (member : p ∈ g.productions)
    {t : Symbol} (plain : t ≠ Symbol.empty) (begins : g.Begins p.body t) {γ : List Symbol}
    (known : ∀ s ∈ γ, s ∈ g.terminals ∨ s ∈ g.nonterminals) :
    ∃ x, g.IsWord x ∧ g.Derives (p.body ++ γ) x ∧ firstToken x = t := by
  rcases begins with ⟨mark, _⟩ | ⟨terminal | mark, rest, derives⟩
  · exact absurd mark plain
  · have declared := derives.declared fun s inside => mem_body member inside
    have all : ∀ s ∈ rest ++ γ, s ∈ g.terminals ∨ s ∈ g.nonterminals := by
      intro s inside
      rcases List.mem_append.mp inside with inside | inside
      · exact declared s (by simp [inside])
      · exact known s inside
    obtain ⟨x, word, derivesRest⟩ := Grammar.exists_word reduced.productive all
    refine ⟨t :: x, word.cons terminal, ?_, rfl⟩
    have first := derives.append (Derives.refl γ)
    have second := (Derives.refl [t]).append derivesRest
    exact first.trans (by simpa using second)
  · rcases derives.declared (fun s inside => mem_body member inside) t (by simp) with known | known
    · exact absurd mark (terminal_ne_endMark known)
    · exact absurd mark (nonterminal_ne_endMark known)

/-- A token that selects two productions of one name comes next in a leftmost form with that name,
and each of the two leads to a word that begins with it. -/
theorem IsLL1.separated (decided : g.IsLL1) (reduced : g.Reduced) : g.Separated := by
  intro p hp q hq name t predictsP predictsQ
  -- One context serves both productions: its rest begins with the token if one of them is empty.
  have follows : g.Precedes p.name t → p = q := by
    intro precedes
    obtain ⟨w, γ, x, word, leftmost, wordX, derivesX, first⟩ := precedes.leftmost reduced
    have known := leftmost.derives.declared start_declared
    have leads : ∀ r ∈ g.productions, g.Next r.body (g.Precedes p.name) t →
        ∃ y, g.IsWord y ∧ g.Derives (r.body ++ γ) y ∧ firstToken y = t := by
      intro r member next
      rcases next with ⟨plain, begins⟩ | ⟨empty, _⟩
      · exact begins.exists_word reduced member plain fun s inside => known s (by simp [inside])
      · exact ⟨x, wordX, (empty.append derivesX), first⟩
    obtain ⟨y, wordY, derivesY, firstY⟩ := leads p hp predictsP
    obtain ⟨z, wordZ, derivesZ, firstZ⟩ := leads q hq (name ▸ predictsQ)
    exact decided p hp q hq name w y z γ word wordY wordZ leftmost derivesY derivesZ
      (firstY.trans firstZ.symm)
  rcases predictsP with ⟨plain, beginsP⟩ | ⟨_, precedes⟩
  · rcases predictsQ with ⟨_, beginsQ⟩ | ⟨_, precedes⟩
    · obtain ⟨left, right, reach⟩ := (reduced p.name (g.wellFormed.name_declared p hp)).1
      obtain ⟨w, γ, word, leftmost, _⟩ := leftmost_of_derives reduced reach
      have known := leftmost.derives.declared start_declared
      have after : ∀ s ∈ γ, s ∈ g.terminals ∨ s ∈ g.nonterminals :=
        fun s inside => known s (by simp [inside])
      obtain ⟨y, wordY, derivesY, firstY⟩ := beginsP.exists_word reduced hp plain after
      obtain ⟨z, wordZ, derivesZ, firstZ⟩ := beginsQ.exists_word reduced hq plain after
      exact decided p hp q hq name w y z γ word wordY wordZ leftmost derivesY derivesZ
        (firstY.trans firstZ.symm)
    · exact follows (name ▸ precedes)
  · exact follows precedes

end Grammar

def Analysis.PredictsApart (a : Analysis) : Prop :=
  ∀ p ∈ a.grammar.productions, ∀ q ∈ a.grammar.productions, p.name = q.name → p ≠ q →
    ∃ first second, a.predict p = .ok first ∧ a.predict q = .ok second ∧
      ∀ token, token ∈ first → ¬ token ∈ second

theorem Analysis.predictsApart_iff {g : Grammar} {a : Analysis} (of : a.IsOf g) :
    a.PredictsApart ↔ g.Separated := by
  unfold PredictsApart
  rw [of.grammar_eq]
  constructor
  · intro apart p hp q hq name token selectsP selectsQ
    by_cases same : p = q
    · exact same
    · obtain ⟨first, second, predictedP, predictedQ, disjoint⟩ := apart p hp q hq name same
      obtain ⟨_, computedP, specP⟩ := predict_ok of hp
      obtain ⟨_, computedQ, specQ⟩ := predict_ok of hq
      rw [predictedP] at computedP
      rw [predictedQ] at computedQ
      cases computedP
      cases computedQ
      exact absurd ((specQ token).mpr selectsQ) (disjoint token ((specP token).mpr selectsP))
  · intro separated p hp q hq name different
    obtain ⟨first, predictedP, specP⟩ := predict_ok of hp
    obtain ⟨second, predictedQ, specQ⟩ := predict_ok of hq
    refine ⟨first, second, predictedP, predictedQ, fun token insideP insideQ => different ?_⟩
    exact separated p hp q hq name token ((specP token).mp insideP) ((specQ token).mp insideQ)

/-- The generator decides the property. If every nonterminal is of use, the predict sets are apart,
and no conflict is recorded, exactly for the grammars in which the next token always decides. -/
theorem Grammar.conflict_free_iff_isLL1 {g : Grammar} (reduced : g.Reduced) :
    ∃ a d, g.analysis = .ok a ∧ a.draft = .ok d ∧ (a.PredictsApart ↔ g.IsLL1) ∧
      (d.conflicts = [] ↔ g.IsLL1) := by
  obtain ⟨a, analysed, of⟩ := Analysis.analysis_ok g
  obtain ⟨d, drafted, _⟩ := Analysis.draft_ok of
  have decides : g.Separated ↔ g.IsLL1 :=
    ⟨Separated.isLL1, fun decided => decided.separated reduced⟩
  have apart := Analysis.predictsApart_iff of
  have free := Analysis.conflicts_eq_nil_iff of drafted
  exact ⟨a, d, analysed, drafted, apart.trans decides, free.trans decides⟩

namespace Sample

theorem textbook_S : textbookGrammar.Derives ["S"] ["a", "A", "B", "b"] :=
  Grammar.Derives.of_production (p := ⟨"S", ["a", "A", "B", "b"], 0⟩) (by decide +kernel)

theorem textbook_A : textbookGrammar.Derives ["A"] [] :=
  Grammar.Derives.of_production (p := ⟨"A", [Symbol.empty], 2⟩) (by decide +kernel)

theorem textbook_B : textbookGrammar.Derives ["B"] ["c"] :=
  Grammar.Derives.of_production (p := ⟨"B", ["c"], 4⟩) (by decide +kernel)

theorem textbook_reduced : textbookGrammar.Reduced := by
  have names : textbookGrammar.nonterminals.toList = ["A", "B", "S"] := by decide +kernel
  have word : ∀ s ∈ ["a", "b", "c"], s ∈ textbookGrammar.terminals := by decide +kernel
  have whole : textbookGrammar.Derives ["S"] ["a", "c", "b"] := by
    have inside := (textbook_A.append textbook_B).context ["a"] ["b"]
    exact textbook_S.trans inside
  intro s member
  rw [← SymbolSet.mem_toList, names] at member
  simp only [List.mem_cons, List.not_mem_nil, or_false] at member
  rcases member with rfl | rfl | rfl
  · exact ⟨⟨["a"], ["B", "b"], textbook_S⟩, [], Grammar.isWord_nil, textbook_A⟩
  · refine ⟨⟨["a", "A"], ["b"], textbook_S⟩, ["c"], ?_, textbook_B⟩
    exact fun t inside => word t (by simp_all)
  · refine ⟨⟨[], [], Grammar.Derives.refl _⟩, ["a", "c", "b"], ?_, whole⟩
    intro t inside
    simp only [List.mem_cons, List.not_mem_nil, or_false] at inside
    rcases inside with rfl | rfl | rfl <;> exact word _ (by simp)

theorem textbook_conflict_free :
    ∃ a d, textbookGrammar.analysis = .ok a ∧ a.draft = .ok d ∧
      (a.PredictsApart ↔ textbookGrammar.IsLL1) ∧ (d.conflicts = [] ↔ textbookGrammar.IsLL1) :=
  Grammar.conflict_free_iff_isLL1 textbook_reduced

end Sample

end TopDown
