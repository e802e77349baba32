import TopDown.Proofs.LeftRecursion
import TopDown.Proofs.Table.Clashes
import TopDown.Sample

namespace TopDown

theorem Production.ascending {ps : List Production}
    (index_eq : ∀ (i : Nat) (bound : i < ps.length), ps[i].index = (i : Int)) :
    ps.Pairwise fun p q => p.index < q.index := by
  rw [List.pairwise_iff_getElem]
  intro i j hi hj less
  rw [index_eq i hi, index_eq j hj]
  omega

namespace Grammar

theorem productions_ascending (g : Grammar) :
    g.productions.Pairwise fun p q => p.index < q.index :=
  Production.ascending g.wellFormed.index_eq

theorem nonterminalList_eq_cons (g : Grammar) : ∃ rest, g.nonterminalList = g.start :: rest := by
  unfold nonterminalList
  rw [List.eraseDups_cons]
  exact ⟨_, rfl⟩

theorem nodup_eraseDups (symbols : List Symbol) : symbols.eraseDups.Nodup := by
  match symbols with
  | [] => exact List.nodup_nil
  | s :: rest =>
    rw [List.eraseDups_cons, List.nodup_cons]
    constructor
    · simp
    · exact nodup_eraseDups _
termination_by symbols.length
decreasing_by exact Nat.lt_succ_of_le (List.length_filter_le _ _)

theorem nodup_listing {written : List Symbol} (distinct : written.Nodup) (declared : SymbolSet) :
    (written ++ (declared.filter (!written.contains ·)).toList).Nodup := by
  refine List.nodup_append.mpr ⟨distinct, SymbolSet.nodup _, ?_⟩
  intro s early t late same
  subst same
  have absent := (SymbolSet.mem_filter.mp (SymbolSet.mem_toList.mp late)).2
  simp [early] at absent

theorem nonterminalList_nodup (g : Grammar) : g.nonterminalList.Nodup :=
  nodup_listing (nodup_eraseDups _) g.nonterminals

theorem terminalList_nodup (g : Grammar) : g.terminalList.Nodup :=
  nodup_listing (nodup_eraseDups _) g.terminals

end Grammar

namespace Analysis

def Selects (a : Analysis) (p : Production) (token : Symbol) : Prop :=
  p ∈ a.grammar.productions ∧ ∃ tokens, a.predict p = .ok tokens ∧ token ∈ tokens

def Contested (a : Analysis) : Prop :=
  ∃ p q token, a.Selects p token ∧ a.Selects q token ∧ p.name = q.name ∧ p ≠ q

/-- A table with a row for each nonterminal, that of the start symbol first, and in the cells the
productions that the tokens select. -/
structure Fills (a : Analysis) (t : Table) : Prop where
  start_eq : t.start = a.grammar.start
  terminals_eq : t.terminals = a.grammar.terminals
  start_first : ∃ rest, t.rows.map (·.1) = a.grammar.start :: rest
  names_nodup : (t.rows.map (·.1)).Nodup
  mem_names : ∀ s, s ∈ t.rows.map (·.1) ↔ s ∈ a.grammar.nonterminals
  answers : ∀ s token, s ∈ a.grammar.nonterminals → ∃ cell, t.lookup s token = .ok cell
  lookup_iff : ∀ s token p, t.lookup s token = .ok (some p) ↔ p.name = s ∧ a.Selects p token

variable {g : Grammar} {a : Analysis} {p : Production} {token : Symbol}

theorem selects_iff (of : a.IsOf g) :
    a.Selects p token ↔ p ∈ g.productions ∧ g.Predicts p token := by
  unfold Selects
  rw [of.grammar_eq]
  refine and_congr_right fun rule => ?_
  obtain ⟨tokens, predicted, spec⟩ := predict_ok of rule
  rw [← spec]
  constructor
  · intro ⟨tokens', predicted', member⟩
    rw [predicted] at predicted'
    cases predicted'
    exact member
  · exact fun member => ⟨tokens, predicted, member⟩

theorem contested_iff (of : a.IsOf g) : a.Contested ↔ ¬ g.Separated := by
  simp only [Contested, selects_iff of, Grammar.Separated]
  constructor
  · intro ⟨p, q, token, ⟨hp, first⟩, ⟨hq, second⟩, name, different⟩ separated
    exact different (separated p hp q hq name token first second)
  · intro mixed
    by_contra none
    apply mixed
    intro p hp q hq name token first second
    by_contra different
    exact none ⟨p, q, token, ⟨hp, first⟩, ⟨hq, second⟩, name, different⟩

theorem submissions_pairwise (of : a.IsOf g) :
    (g.productions.flatMap a.submissionsOf).Pairwise Draft.Before := by
  rw [List.pairwise_flatMap]
  constructor
  · intro p rule
    obtain ⟨tokens, predicted, _⟩ := predict_ok of rule
    simp only [submissionsOf, predicted, List.pairwise_map]
    exact tokens.ascending.imp fun less => Or.inr ⟨rfl, less⟩
  · refine g.productions_ascending.imp_of_mem ?_
    rintro p q hp hq less ⟨token, r⟩ first ⟨token', r'⟩ second
    obtain ⟨rfl, _⟩ := (mem_submissionsOf of hp).mp first
    obtain ⟨rfl, _⟩ := (mem_submissionsOf of hq).mp second
    exact Or.inl less

theorem conflicts_lists (of : a.IsOf g) {d : Draft} (drafted : a.draft = .ok d) :
    Conflict.Lists a.Selects d.conflicts := by
  obtain ⟨d', drafted', records⟩ := draft_ok of
  rw [drafted] at drafted'
  cases drafted'
  have submitted : (fun p token => (token, p) ∈ g.productions.flatMap a.submissionsOf) =
      a.Selects := by
    funext p token
    rw [mem_submissions of, selects_iff of]
  rw [records.conflicts_eq, ← submitted]
  exact Draft.clashes_lists (submissions_pairwise of)

theorem fills_of_isOf (of : a.IsOf g) {t : Table} (isOf : t.IsOf g) : a.Fills t := by
  refine ⟨?_, ?_, ?_, ?_, ?_, ?_, ?_⟩
  · rw [isOf.start_eq, of.grammar_eq]
  · rw [isOf.terminals_eq, of.grammar_eq]
  · rw [isOf.names_eq, of.grammar_eq]
    exact g.nonterminalList_eq_cons
  · rw [isOf.names_eq]
    exact g.nonterminalList_nodup
  · intro s
    rw [isOf.names_eq, of.grammar_eq, Grammar.mem_nonterminalList]
  · intro s token nonterminal
    rw [of.grammar_eq] at nonterminal
    exact isOf.lookup_ok nonterminal token
  · intro s token p
    rw [isOf.lookup_iff, selects_iff of]
    exact and_left_comm

theorem table_eq {recursion : Option (List Symbol)} (searched : a.leftRecursion = .ok recursion)
    {d : Draft} (drafted : a.draft = .ok d) :
    a.table = match recursion with
      | some cycle => .error (.leftRecursion cycle)
      | none =>
        if d.conflicts = [] then .ok ⟨d.start, d.terminals, d.rows⟩
        else .error (.conflicts d.conflicts) := by
  cases recursion with
  | some cycle => simp only [table, searched]
  | none =>
    simp only [table, searched, drafted, Draft.publish, List.isEmpty_iff]
    split
    · rename_i found published
      split at published
      · cases published
      · rename_i busy
        cases published
        rw [if_neg busy]
    · rename_i own published
      split at published
      · rename_i free
        cases published
        rw [if_pos free]
        rfl
      · cases published

end Analysis

/-- Generation reports left recursion exactly if the search finds it. Otherwise it reports the
complete list of conflicts exactly if some token selects two productions of one name, and returns a
table of the predict sets exactly if none does. -/
theorem Grammar.table_outcome (g : Grammar) : ∃ a recursion, g.analysis = .ok a ∧
    a.grammar = g ∧ a.leftRecursion = .ok recursion ∧
    (∀ p ∈ g.productions, ∃ tokens, a.predict p = .ok tokens) ∧
    (∀ cycle, g.table = .error (.leftRecursion cycle) ↔ recursion = some cycle) ∧
    (recursion = none →
      ((∃ found, g.table = .error (.conflicts found)) ↔ a.Contested) ∧
      (∀ found, g.table = .error (.conflicts found) → Conflict.Lists a.Selects found) ∧
      (¬ a.Contested → ∃ t, g.table = .ok t ∧ a.Fills t)) := by
  obtain ⟨a, analysed, of⟩ := Analysis.analysis_ok g
  obtain ⟨recursion, searched, _⟩ := Analysis.leftRecursion_ok of
  obtain ⟨d, drafted, _⟩ := Analysis.draft_ok of
  have generated : g.table = a.table := by simp only [Grammar.table, analysed]
  have outcome := Analysis.table_eq searched drafted
  refine ⟨a, recursion, analysed, of.grammar_eq, searched, ?_, ?_, ?_⟩
  · intro p rule
    obtain ⟨tokens, predicted, _⟩ := Analysis.predict_ok of rule
    exact ⟨tokens, predicted⟩
  · intro cycle
    rw [generated, outcome]
    cases recursion with
    | some found => simp
    | none => by_cases free : d.conflicts = [] <;> simp [free]
  · intro none
    subst none
    have lists := Analysis.conflicts_lists of drafted
    have contested : a.Contested ↔ d.conflicts ≠ [] := by
      rw [Analysis.contested_iff of, ne_eq, Analysis.conflicts_eq_nil_iff of drafted]
    dsimp only at outcome
    by_cases free : d.conflicts = []
    · rw [if_pos free, ← generated] at outcome
      have calm : ¬ a.Contested := fun some => contested.mp some free
      refine ⟨?_, ?_, ?_⟩
      · simp [outcome, calm]
      · simp [outcome]
      · intro _
        obtain ⟨_, isOf⟩ := Analysis.table_isOf of (generated ▸ outcome)
        exact ⟨_, outcome, Analysis.fills_of_isOf of isOf⟩
    · rw [if_neg free, ← generated] at outcome
      have busy := contested.mpr free
      refine ⟨?_, ?_, ?_⟩
      · simp [outcome, busy]
      · intro found same
        rw [outcome] at same
        cases same
        exact lists
      · exact fun calm => absurd busy calm

namespace Sample

theorem textbook_table : textbookGrammar.table = .ok textbookTable := by
  have made : textbookGrammar.table.toOption = some textbookTable := by decide +kernel
  cases found : textbookGrammar.table with
  | error e => simp [found, Except.toOption] at made
  | ok t =>
    rw [found] at made
    cases made
    rfl

def contested : Declaration where
  start := "S"
  rules :=
    [("S", ["a"]), ("S", ["A", "b"]), ("S", ["a", "c"]), ("A", ["a"]), ("A", []), ("A", ["b"])]
  terminals := none
  nonterminals := none

def contestedGrammar : Grammar :=
  ⟨contested.start, contested.productions, contested.terminalSet, contested.nonterminalSet,
    contested.wellFormed_of_fault (by decide +kernel)⟩

def contestedCells : List Conflict :=
  [⟨"S", "a", ⟨"S", ["a"], 0⟩, ⟨"S", ["A", "b"], 1⟩⟩,
    ⟨"S", "a", ⟨"S", ["a"], 0⟩, ⟨"S", ["a", "c"], 2⟩⟩,
    ⟨"A", "b", ⟨"A", [Symbol.empty], 4⟩, ⟨"A", ["b"], 5⟩⟩]

theorem contested_table : contestedGrammar.table = .error (.conflicts contestedCells) := by
  decide +kernel

theorem contested_table_outcome :
    (∃ a, contestedGrammar.analysis = .ok a ∧ a.leftRecursion = .ok none ∧ a.Contested ∧
      Conflict.Lists a.Selects contestedCells) ∧
    ∃ a, textbookGrammar.analysis = .ok a ∧ a.leftRecursion = .ok none ∧ ¬ a.Contested ∧
      a.Fills textbookTable := by
  constructor
  · obtain ⟨a, recursion, analysed, _, searched, _, cyclic, rest⟩ :=
      Grammar.table_outcome contestedGrammar
    have none : recursion = none := by
      apply Option.eq_none_iff_forall_ne_some.mpr
      intro cycle same
      simpa [contested_table] using (cyclic cycle).mpr same
    subst none
    obtain ⟨some, lists, _⟩ := rest rfl
    exact ⟨a, analysed, searched, some.mp ⟨_, contested_table⟩, lists _ contested_table⟩
  · obtain ⟨a, recursion, analysed, _, searched, _, cyclic, rest⟩ :=
      Grammar.table_outcome textbookGrammar
    have none : recursion = none := by
      apply Option.eq_none_iff_forall_ne_some.mpr
      intro cycle same
      simpa [textbook_table] using (cyclic cycle).mpr same
    subst none
    obtain ⟨some, _, fills⟩ := rest rfl
    have calm : ¬ a.Contested := by
      intro contested
      obtain ⟨found, failed⟩ := some.mpr contested
      rw [textbook_table] at failed
      cases failed
    obtain ⟨t, made, filled⟩ := fills calm
    rw [textbook_table] at made
    cases made
    exact ⟨a, analysed, searched, calm, filled⟩

end Sample

end TopDown
