import TopDown.Proofs.Prediction
import TopDown.Proofs.Table.Publication

namespace TopDown

variable {g : Grammar} {a : Analysis} {t : Table} {d e : Draft} {s token : Symbol} {p : Production}
  {ps : List Production}

theorem Analysis.IsOf.mem_first (of : a.IsOf g) (nonterminal : s ∈ g.nonterminals) :
    ∃ first, a.firsts.find s = .ok first ∧ ∀ x, x ∈ first ↔ g.Begins [s] x := by
  obtain ⟨first, found⟩ := of.first.defines s (Or.inr nonterminal)
  refine ⟨first, found, fun x => ?_⟩
  rw [← Family.has_iff found, of.first.has_iff s (Or.inr (Or.inl nonterminal))]

theorem Analysis.IsOf.mem_follow (of : a.IsOf g) (nonterminal : s ∈ g.nonterminals) :
    ∃ follow, a.follows.find s = .ok follow ∧ ∀ x, x ∈ follow ↔ g.Precedes s x := by
  obtain ⟨follow, found⟩ := of.follow.defines s nonterminal
  refine ⟨follow, found, fun x => ?_⟩
  rw [← Family.has_iff found, of.follow.has_iff s nonterminal]

theorem Table.IsOf.expected_eq (of : t.IsOf g) (nonterminal : s ∈ g.nonterminals) :
    ∃ row, t.expected s = .ok (Table.tokens row).toList ∧
      ∀ x, x ∈ Table.tokens row ↔ g.Next [s] (g.Precedes s) x := by
  obtain ⟨row, found, _⟩ := of.row s nonterminal
  refine ⟨row, by simp [Table.expected, Table.row, found, Except.map], fun x => ?_⟩
  exact of.mem_tokens found

/-- The tokens of a row are FIRST of its nonterminal without the mark, and FOLLOW as well if the
nonterminal can be empty. A nonterminal without productions has none. -/
theorem Table.expected_first_follow (made : g.table = .ok t) : ∃ a, g.analysis = .ok a ∧
    ∀ s, s ∈ g.nonterminals → ∃ first follow nullable tokens,
      a.firsts.find s = .ok first ∧ a.follows.find s = .ok follow ∧
      a.isNullable s = .ok nullable ∧ t.expected s = .ok tokens ∧ tokens.Pairwise (· < ·) ∧
      (∀ x, x ∈ tokens ↔ (x ∈ first ∧ x ≠ Symbol.empty) ∨ (nullable = true ∧ x ∈ follow)) ∧
      (g.productionsOf s = [] → tokens = []) := by
  obtain ⟨a, analysed, of⟩ := Analysis.analysis_ok g
  obtain ⟨_, _, _, isOf⟩ := Grammar.table_isOf made
  refine ⟨a, analysed, fun s nonterminal => ?_⟩
  obtain ⟨first, foundFirst, begins⟩ := of.mem_first nonterminal
  obtain ⟨follow, foundFollow, precedes⟩ := of.mem_follow nonterminal
  obtain ⟨nullable, computed, vanishes⟩ := Analysis.isNullable_ok of nonterminal
  obtain ⟨row, expected, next⟩ := isOf.expected_eq nonterminal
  refine ⟨first, follow, nullable, _, foundFirst, foundFollow, computed, expected,
    SymbolSet.ascending _, fun x => ?_, fun barren => ?_⟩
  · rw [SymbolSet.mem_toList, next, begins, precedes, vanishes, @and_comm (g.Begins [s] x)]
    exact Iff.rfl
  · apply List.eq_nil_iff_forall_not_mem.mpr
    intro x member
    obtain ⟨p, rule, name, _⟩ := (Grammar.exists_predicts_iff nonterminal).mpr ((next x).mp member)
    have inside : p ∈ g.productionsOf s := by simp [Grammar.productionsOf, rule, name]
    rw [barren] at inside
    cases inside

namespace Sample

def idle : Declaration where
  start := "S"
  rules := [("S", ["A", "b"]), ("S", ["U"]), ("A", ["a", "A"]), ("A", [])]
  terminals := none
  nonterminals := some ["S", "A", "U"]

def idleGrammar : Grammar :=
  ⟨idle.start, idle.productions, idle.terminalSet, idle.nonterminalSet,
    idle.wellFormed_of_fault (by decide +kernel)⟩

def idleTable : Table where
  start := "S"
  terminals := idle.terminalSet
  rows :=
    [("S", [("a", ⟨"S", ["A", "b"], 0⟩), ("b", ⟨"S", ["A", "b"], 0⟩)]),
      ("A", [("a", ⟨"A", ["a", "A"], 2⟩), ("b", ⟨"A", [Symbol.empty], 3⟩)]),
      ("U", [])]

theorem idle_table : idleGrammar.table = .ok idleTable := by
  decide +kernel

theorem idle_expected_first_follow : idleTable.expected "U" = .ok [] ∧
    ∃ a first follow nullable, idleGrammar.analysis = .ok a ∧ a.firsts.find "A" = .ok first ∧
      a.follows.find "A" = .ok follow ∧ a.isNullable "A" = .ok nullable ∧
      idleTable.expected "A" = .ok ["a", "b"] ∧
      ∀ x, x ∈ ["a", "b"] ↔
        (x ∈ first ∧ x ≠ Symbol.empty) ∨ (nullable = true ∧ x ∈ follow) := by
  obtain ⟨a, analysed, rows⟩ := Table.expected_first_follow idle_table
  obtain ⟨_, _, _, _, _, _, _, none, _, _, barren⟩ := rows "U" (by decide +kernel)
  obtain ⟨first, follow, nullable, tokens, foundFirst, foundFollow, computed, expected, _, members,
    _⟩ := rows "A" (by decide +kernel)
  have read : idleTable.expected "A" = .ok ["a", "b"] := by decide +kernel
  rw [read] at expected
  cases expected
  rw [barren (by decide +kernel)] at none
  exact ⟨none, a, first, follow, nullable, analysed, foundFirst, foundFollow, computed, read, members⟩

end Sample

def Draft.Holds (d : Draft) (P : Symbol → Production → Prop) : Prop :=
  ∀ r ∈ d.rows, ∀ e ∈ r.2, P e.1 e.2

namespace Draft.Holds

variable {P : Symbol → Production → Prop}

theorem enter (holds : d.Holds P) (valid : P token p) (entered : d.enter token p = .ok e) :
    e.Holds P := by
  obtain ⟨row, found, ⟨_, rfl⟩ | ⟨_, _, _, rfl⟩⟩ := enter_cases entered
  · intro r member
    obtain ⟨old, inside, rfl⟩ := List.mem_map.mp member
    have kept : ∀ e ∈ row, P e.1 e.2 := holds (p.name, row) (mem_of_lookup found)
    split
    · intro e cell
      rcases List.mem_append.mp cell with cell | last
      · exact kept e cell
      · rw [List.mem_singleton.mp last]
        exact valid
    · exact holds old inside
  · exact holds

theorem enterEach {tokens : List Symbol} (holds : d.Holds P) (valid : ∀ token ∈ tokens, P token p)
    (entered : d.enterEach p tokens = .ok e) : e.Holds P := by
  induction tokens generalizing d with
  | nil =>
    cases entered
    exact holds
  | cons token tokens ih =>
    obtain ⟨here, later⟩ := List.forall_mem_cons.mp valid
    unfold Draft.enterEach at entered
    split at entered
    · cases entered
    · rename_i first
      exact ih (holds.enter here first) later entered

theorem fill (holds : d.Holds P) (valid : ∀ p ∈ ps, ∀ tokens, a.predict p = .ok tokens →
    ∀ token ∈ tokens.toList, P token p) (filled : a.fill ps d = .ok e) : e.Holds P := by
  induction ps generalizing d with
  | nil =>
    cases filled
    exact holds
  | cons p ps ih =>
    obtain ⟨here, later⟩ := List.forall_mem_cons.mp valid
    unfold Analysis.fill at filled
    split at filled
    · cases filled
    · rename_i tokens predicted
      split at filled
      · cases filled
      · rename_i entered
        exact ih (holds.enterEach (here tokens predicted) entered) later filled

end Draft.Holds

theorem Grammar.of_mem_row (made : g.table = .ok t) {r : Symbol × Row} (row : r ∈ t.rows)
    {c : Symbol × Production} (cell : c ∈ r.2) : c.2 ∈ g.productions ∧ g.Predicts c.2 c.1 := by
  obtain ⟨a, analysed, of⟩ := Analysis.analysis_ok g
  obtain ⟨recursion, searched, _⟩ := Analysis.leftRecursion_ok of
  obtain ⟨d, drafted, _⟩ := Analysis.draft_ok of
  simp only [Grammar.table, analysed, Analysis.table_eq searched drafted] at made
  have holds : d.Holds fun token p => p ∈ g.productions ∧ g.Predicts p token := by
    refine Draft.Holds.fill (by simp [Draft.Holds, Draft.ofGrammar]) ?_ drafted
    intro p rule tokens predicted token member
    rw [of.grammar_eq] at rule
    obtain ⟨tokens', predicted', spec⟩ := Analysis.predict_ok of rule
    rw [predicted] at predicted'
    cases predicted'
    exact ⟨rule, (spec token).mp member⟩
  split at made
  · cases made
  · split at made
    · cases made
      exact holds r row c cell
    · cases made

end TopDown
