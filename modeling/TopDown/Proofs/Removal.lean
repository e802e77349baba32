import TopDown.Proofs.Declaration
import TopDown.Proofs.Parse.Transfer
import TopDown.Proofs.Table.Criterion

namespace TopDown

namespace Declaration

variable {start : Symbol} {rules kept : List (Symbol × List Symbol)}
  {terminals nonterminals : List Symbol} {g : Grammar} {u : Table}

theorem exists_within_of_sublist (sublist : kept.Sublist rules)
    (keeps : ∃ rule ∈ kept, rule.1 = start)
    (made : (mk start rules (some terminals) (some nonterminals)).grammar = .ok g) :
    ∃ h, (mk start kept (some terminals) (some nonterminals)).grammar = .ok h ∧ h.Within g := by
  obtain ⟨first, productions, leaves, names⟩ := of_grammar made
  refine exists_within first.symm leaves.symm names.symm ?_ (first ▸ keeps)
  rw [productions, map_rule_productions]
  exact (sublist.map marked).subperm

/-- When the symbols are declared, a grammar with a table keeps having one as rules are removed, the
filled cells hold the rules that they held before, and what is still accepted has the tree that it
had. -/
theorem removal_keeps_table (sublist : kept.Sublist rules) (keeps : ∃ rule ∈ kept, rule.1 = start)
    (made : (mk start rules (some terminals) (some nonterminals)).grammar = .ok g)
    (filled : g.table = .ok u) :
    ∃ h t, (mk start kept (some terminals) (some nonterminals)).grammar = .ok h ∧
      h.table = .ok t ∧
      (∀ s x p, t.lookup s x = .ok (some p) →
        ∃ q, u.lookup s x = .ok (some q) ∧ q.rule = p.rule) ∧
      ∀ tokens tree, t.parse tokens = .accepted tree → u.parse tokens = .accepted tree := by
  obtain ⟨h, made', within⟩ := exists_within_of_sublist sublist keeps made
  obtain ⟨t, filled'⟩ := within.exists_table filled
  obtain ⟨_, _, _, isOf⟩ := Grammar.table_isOf filled'
  obtain ⟨_, _, _, isOf'⟩ := Grammar.table_isOf filled
  have below : t.Within u := isOf.within isOf' within
  refine ⟨h, t, made', filled', fun s x p => below.lookup, fun tokens tree => ?_⟩
  exact below.accepted filled' filled

end Declaration

namespace Sample

def shallowRules : List (Symbol × List Symbol) := textbook.rules.eraseIdx 1

theorem textbook_removal_keeps_table :
    ∃ h t, (Declaration.mk "S" shallowRules (some ["a", "b", "c"]) (some ["S", "A", "B"])).grammar =
        .ok h ∧
      h.table = .ok t ∧
      (∀ s x p, t.lookup s x = .ok (some p) →
        ∃ q, textbookTable.lookup s x = .ok (some q) ∧ q.rule = p.rule) ∧
      ∀ tokens tree, t.parse tokens = .accepted tree →
        textbookTable.parse tokens = .accepted tree := by
  have sublist : shallowRules.Sublist textbook.rules := List.eraseIdx_sublist _ _
  have keeps : ∃ rule ∈ shallowRules, rule.1 = "S" := ⟨_, List.mem_cons_self, rfl⟩
  have made : (Declaration.mk "S" textbook.rules (some ["a", "b", "c"])
      (some ["S", "A", "B"])).grammar = .ok textbookGrammar := by
    rw [Declaration.grammar_of_fault (by decide +kernel)]
    simp only [textbookGrammar, Except.ok.injEq, Grammar.mk.injEq]
    exact ⟨rfl, rfl, by decide +kernel, by decide +kernel⟩
  exact Declaration.removal_keeps_table sublist keeps made textbook_table

end Sample

end TopDown
