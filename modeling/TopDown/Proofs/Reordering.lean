import TopDown.Proofs.Declaration
import TopDown.Proofs.Parse.Transfer
import TopDown.Proofs.Table.Criterion
import TopDown.Proofs.Table.Multiplicity

namespace TopDown

structure Declaration.Reorders (d e : Declaration) : Prop where
  start_eq : d.start = e.start
  perm : d.rules.Perm e.rules
  terminals_eq : d.terminals = e.terminals
  nonterminals_eq : d.nonterminals = e.nonterminals

/-- Outcomes of one kind: conflicts in the same cells, as many of them in each, or tables with the
same rules in their cells that give the same answer on every list of tokens. -/
inductive SameOutcome : Except TableError Table → Except TableError Table → Prop
  | leftRecursion (cycle cycle' : List Symbol) :
    SameOutcome (.error (.leftRecursion cycle)) (.error (.leftRecursion cycle'))
  | conflicts {found found' : List Conflict}
    (cells : (found.map Conflict.cell).Perm (found'.map Conflict.cell)) :
    SameOutcome (.error (.conflicts found)) (.error (.conflicts found'))
  | tables {t u : Table}
    (rules : ∀ s x, (t.lookup s x).map (·.map Production.rule) =
      (u.lookup s x).map (·.map Production.rule))
    (parses : ∀ tokens, t.parse tokens = u.parse tokens) : SameOutcome (.ok t) (.ok u)

namespace Declaration.Reorders

variable {d e : Declaration} {g h : Grammar}

theorem symm (reorders : d.Reorders e) : e.Reorders d :=
  ⟨reorders.start_eq.symm, reorders.perm.symm, reorders.terminals_eq.symm,
    reorders.nonterminals_eq.symm⟩

theorem nonterminalSet_eq (reorders : d.Reorders e) : d.nonterminalSet = e.nonterminalSet := by
  unfold nonterminalSet
  rw [reorders.nonterminals_eq, map_name_productions, map_name_productions]
  cases e.nonterminals with
  | some names => rfl
  | none =>
    ext s
    simp only [Option.getD_none, SymbolSet.mem_ofList]
    exact (reorders.perm.map _).mem_iff

theorem terminalSet_eq (reorders : d.Reorders e) : d.terminalSet = e.terminalSet := by
  unfold terminalSet
  rw [reorders.terminals_eq, reorders.nonterminalSet_eq, flatMap_symbols_productions,
    flatMap_symbols_productions]
  cases e.terminals with
  | some names => rfl
  | none =>
    ext s
    simp only [Option.getD_none, SymbolSet.mem_ofList]
    exact (((reorders.perm.map _).flatMap_right _).filter _).mem_iff

theorem exists_within (reorders : d.Reorders e) (made : d.grammar = .ok g) :
    ∃ h, e.grammar = .ok h ∧ h.Within g := by
  obtain ⟨start, productions, terminals, nonterminals⟩ := of_grammar made
  have rules : g.productions.map Production.rule = d.rules.map marked := by
    rw [productions, map_rule_productions]
  refine Declaration.exists_within ?_ ?_ ?_ ?_ ?_
  · rw [start, reorders.start_eq]
  · rw [terminals, reorders.terminalSet_eq]
  · rw [nonterminals, reorders.nonterminalSet_eq]
  · rw [rules]
    exact (reorders.perm.symm.map _).subperm
  · obtain ⟨p, member, name⟩ := g.wellFormed.start_defined
    obtain ⟨rule, written, named, _⟩ := exists_rule (productions ▸ member)
    exact ⟨rule, reorders.perm.mem_iff.mp written, named.symm.trans name⟩

theorem within (reorders : d.Reorders e) (made : d.grammar = .ok g) (made' : e.grammar = .ok h) :
    g.Within h ∧ h.Within g := by
  obtain ⟨_, there, within⟩ := reorders.symm.exists_within made'
  obtain ⟨_, there', back⟩ := reorders.exists_within made
  rw [made] at there
  rw [made'] at there'
  cases there
  cases there'
  exact ⟨within, back⟩

theorem accepted (reorders : d.Reorders e) (made : ∃ g, d.grammar = .ok g) :
    ∃ h, e.grammar = .ok h := by
  obtain ⟨g, made⟩ := made
  obtain ⟨h, made', _⟩ := reorders.exists_within made
  exact ⟨h, made'⟩

end Declaration.Reorders

namespace Grammar.Within

variable {g h : Grammar}

theorem sameOutcome (within : g.Within h) (back : h.Within g) : SameOutcome g.table h.table := by
  rcases g.table_cases with
    ⟨cycle, isCircuit, outcome⟩ | ⟨acyclic, ⟨mixed, a, analysed, of, outcome⟩ | ⟨_, t, made⟩⟩
  · obtain ⟨cycle', outcome'⟩ := exists_leftRecursion (within.circuit isCircuit)
    rw [outcome, outcome']
    exact .leftRecursion cycle cycle'
  · have acyclic' : ∀ cycle, ¬ IsCircuit h.LeftEdge cycle :=
      fun cycle isCircuit => acyclic cycle (back.circuit isCircuit)
    obtain ⟨b, analysed', of', outcome'⟩ := exists_conflicts acyclic' (mt within.separated mixed)
    have agree := Analysis.Agree.of_within within back analysed analysed'
    rw [outcome, outcome']
    exact .conflicts (agree.perm_cells of of' within back)
  · obtain ⟨u, made'⟩ := back.exists_table made
    obtain ⟨_, _, _, isOf⟩ := table_isOf made
    obtain ⟨_, _, _, isOf'⟩ := table_isOf made'
    have alike := isOf.alike isOf' within back
    rw [made, made']
    exact .tables alike.lookup_eq (alike.parse_eq made made')

end Grammar.Within

namespace Declaration

theorem exists_fault_iff (d : Declaration) :
    (∃ fault, d.grammar = .error fault) ↔ ¬ ∃ g, d.grammar = .ok g := by
  cases d.grammar <;> simp

/-- The order in which the rules are written decides the places of the productions, and with them
which cycle is reported and which production of a contested cell comes first. Nothing else depends
on it. -/
theorem order_immaterial {d e : Declaration} (reorders : d.Reorders e) :
    ((∃ fault, d.grammar = .error fault) ↔ ∃ fault, e.grammar = .error fault) ∧
    ∀ g h, d.grammar = .ok g → e.grammar = .ok h →
      (∃ a b, g.analysis = .ok a ∧ h.analysis = .ok b ∧ a.Agree b ∧
        ∀ p ∈ g.productions, ∃ q ∈ h.productions, q.rule = p.rule ∧
          ∃ tokens, a.predict p = .ok tokens ∧ b.predict q = .ok tokens) ∧
      SameOutcome g.table h.table := by
  constructor
  · rw [exists_fault_iff, exists_fault_iff]
    exact not_congr ⟨reorders.accepted, reorders.symm.accepted⟩
  · intro g h made made'
    obtain ⟨within, back⟩ := reorders.within made made'
    obtain ⟨a, analysed, of⟩ := Analysis.analysis_ok g
    obtain ⟨b, analysed', _⟩ := Analysis.analysis_ok h
    have agree := Analysis.Agree.of_within within back analysed analysed'
    refine ⟨⟨a, b, analysed, analysed', agree, fun p member => ?_⟩, within.sameOutcome back⟩
    obtain ⟨q, member', same⟩ := within.exists_rule p member
    obtain ⟨tokens, predicted, _⟩ := Analysis.predict_ok of member
    exact ⟨q, member', same, tokens, predicted, agree.predict_eq p q same.symm ▸ predicted⟩

end Declaration

namespace Sample

def reversed : Declaration := { textbook with rules := textbook.rules.reverse }

theorem reversed_reorders : textbook.Reorders reversed :=
  ⟨rfl, (List.reverse_perm textbook.rules).symm, rfl, rfl⟩

theorem textbook_order_immaterial : textbook.Reorders reversed ∧
    ∃ h, textbook.grammar = .ok textbookGrammar ∧ reversed.grammar = .ok h ∧
      SameOutcome textbookGrammar.table h.table := by
  have made := Declaration.grammar_of_fault (d := textbook) (by decide +kernel)
  have made' := Declaration.grammar_of_fault (d := reversed) (by decide +kernel)
  have same := (Declaration.order_immaterial reversed_reorders).2 textbookGrammar _ made made'
  exact ⟨reversed_reorders, _, made, made', same.2⟩

end Sample

end TopDown
