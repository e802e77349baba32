import Mathlib.Data.List.Perm.Subperm
import TopDown.Grammar.Declaration
import TopDown.Proofs.Subgrammar

namespace TopDown

theorem Production.body_of_rule (name : Symbol) (symbols : List Symbol) (index : Int) :
    body ⟨name, if symbols.isEmpty then [Symbol.empty] else symbols, index⟩ =
      Symbol.written symbols := by
  unfold body
  split
  · rename_i none
    rw [List.isEmpty_iff.mp none]
    rfl
  · rfl

namespace Declaration

variable {d : Declaration} {g : Grammar} {ps earlier : List Production} {t n : SymbolSet}
  {start : Symbol}

theorem of_grammar (made : d.grammar = .ok g) :
    g.start = d.start ∧ g.productions = d.productions ∧ g.terminals = d.terminalSet ∧
      g.nonterminals = d.nonterminalSet := by
  unfold grammar at made
  split at made
  · cases made
  · cases made
    exact ⟨rfl, rfl, rfl, rfl⟩

theorem exists_rule {p : Production} (member : p ∈ d.productions) :
    ∃ rule ∈ d.rules, p.name = rule.1 ∧ p.body = Symbol.written rule.2 := by
  obtain ⟨i, bound, rfl⟩ := List.mem_mapIdx.mp member
  exact ⟨d.rules[i], List.getElem_mem bound, rfl, Production.body_of_rule _ _ _⟩

theorem exists_production {rule : Symbol × List Symbol} (member : rule ∈ d.rules) :
    ∃ p ∈ d.productions, p.name = rule.1 ∧ p.body = Symbol.written rule.2 := by
  obtain ⟨i, bound, rfl⟩ := List.mem_iff_getElem.mp member
  exact ⟨_, List.mem_mapIdx.mpr ⟨i, bound, rfl⟩, rfl, Production.body_of_rule _ _ _⟩

section Rules

/-- A rule as its production has it: an empty right side is written with the mark. -/
def marked (rule : Symbol × List Symbol) : Symbol × List Symbol :=
  (rule.1, if rule.2.isEmpty then [Symbol.empty] else rule.2)

theorem map_rule_productions (d : Declaration) :
    d.productions.map Production.rule = d.rules.map marked := by
  apply List.ext_getElem
  · simp [productions]
  · intro i _ _
    simp [productions, Production.rule, marked]

theorem map_name_productions (d : Declaration) : d.productions.map (·.name) = d.rules.map (·.1) := by
  have names := congrArg (List.map Prod.fst) d.map_rule_productions
  simpa [Function.comp_def, Production.rule, marked] using names

theorem flatMap_symbols_productions (d : Declaration) :
    d.productions.flatMap (·.symbols) = (d.rules.map marked).flatMap Prod.snd := by
  rw [← d.map_rule_productions, List.flatMap_map]
  rfl

end Rules

section Faultless

theorem mixedFault_eq_none
    (unmixed : ∀ p ∈ ps, Symbol.empty ∈ p.symbols → p.symbols = [Symbol.empty]) :
    mixedFault ps = none := by
  rw [mixedFault, Option.map_eq_none_iff, List.find?_eq_none]
  intro p member
  by_cases mark : Symbol.empty ∈ p.symbols
  · simp [unmixed p member mark]
  · simp [mark]

theorem reservedFault_eq_none (terminals : ∀ s ∈ t, Symbol.isReserved s = false)
    (nonterminals : ∀ s ∈ n, Symbol.isReserved s = false) : reservedFault t n = none := by
  have none : ((t.union n).filter (Symbol.isReserved ·)).toList = [] := by
    apply List.eq_nil_iff_forall_not_mem.mpr
    intro s member
    simp only [SymbolSet.mem_toList, SymbolSet.mem_filter, SymbolSet.mem_union] at member
    obtain ⟨terminal | nonterminal, reserved⟩ := member
    · simp [terminals s terminal] at reserved
    · simp [nonterminals s nonterminal] at reserved
  simp [reservedFault, none]

theorem kindFault_eq_none (disjoint : ∀ s ∈ t, ¬ s ∈ n) : kindFault t n = none := by
  have none : (t.filter fun s => s ∈ n).toList = [] := by
    apply List.eq_nil_iff_forall_not_mem.mpr
    intro s member
    simp only [SymbolSet.mem_toList, SymbolSet.mem_filter, decide_eq_true_eq] at member
    exact disjoint s member.1 member.2
  simp [kindFault, none]

theorem undeclaredFault_eq_none {p : Production} (name : p.name ∈ n)
    (symbols : ∀ s ∈ p.symbols, s = Symbol.empty ∨ s ∈ t ∨ s ∈ n) :
    undeclaredFault t n p = none := by
  rw [undeclaredFault, if_pos name, Option.map_eq_none_iff, List.find?_eq_none]
  intro s member
  rcases symbols s member with mark | terminal | nonterminal
  · simp [mark]
  · simp [terminal]
  · simp [nonterminal]

theorem ruleFault_of_distinct (declared : ∀ p ∈ ps, undeclaredFault t n p = none)
    (fresh : ∀ q ∈ earlier, ∀ p ∈ ps, q.sameRule p = false)
    (distinct : ps.Pairwise fun p q => p.sameRule q = false) :
    ruleFault t n earlier ps = none := by
  induction ps generalizing earlier with
  | nil => rfl
  | cons p rest ih =>
    obtain ⟨head, tail⟩ := List.pairwise_cons.mp distinct
    have new : (earlier.find? fun q => q.sameRule p) = none := by
      rw [List.find?_eq_none]
      intro q before
      simp [fresh q before p List.mem_cons_self]
    have later : ruleFault t n (earlier ++ [p]) rest = none := by
      refine ih (fun q member => declared q (List.mem_cons_of_mem p member)) ?_ tail
      intro q before r member
      rcases List.mem_append.mp before with before | last
      · exact fresh q before r (List.mem_cons_of_mem p member)
      · rw [List.mem_singleton.mp last]
        exact head r member
    simp [ruleFault, declared p List.mem_cons_self, new, later]

theorem startFault_eq_none (defined : ∃ p ∈ ps, p.name = start) : startFault start ps = none := by
  obtain ⟨p, member, name⟩ := defined
  have found : ps.any (·.name == start) = true :=
    List.any_eq_true.mpr ⟨p, member, beq_iff_eq.mpr name⟩
  rw [startFault, if_pos found]

theorem fault_of_wellFormed
    (sound : WellFormed d.start d.productions d.terminalSet d.nonterminalSet) : d.fault = none := by
  have declared : ∀ p ∈ d.productions, undeclaredFault d.terminalSet d.nonterminalSet p = none :=
    fun p member =>
      undeclaredFault_eq_none (sound.name_declared p member) (sound.symbol_declared p member)
  have rules : ruleFault d.terminalSet d.nonterminalSet [] d.productions = none :=
    ruleFault_of_distinct declared (fun q before => absurd before List.not_mem_nil) sound.distinct
  simp [fault, mixedFault_eq_none sound.unmixed,
    reservedFault_eq_none sound.terminal_unreserved sound.nonterminal_unreserved,
    kindFault_eq_none sound.disjoint, rules, startFault_eq_none sound.start_defined]

theorem grammar_of_fault (free : d.fault = none) : d.grammar =
    .ok ⟨d.start, d.productions, d.terminalSet, d.nonterminalSet, d.wellFormed_of_fault free⟩ := by
  unfold grammar
  split
  · rename_i found
    rw [free] at found
    cases found
  · rfl

theorem exists_grammar_iff (d : Declaration) : (∃ g, d.grammar = .ok g) ↔
    WellFormed d.start d.productions d.terminalSet d.nonterminalSet := by
  constructor
  · intro ⟨g, made⟩
    obtain ⟨start, productions, terminals, nonterminals⟩ := of_grammar made
    rw [← start, ← productions, ← terminals, ← nonterminals]
    exact g.wellFormed
  · exact fun sound => ⟨_, grammar_of_fault (fault_of_wellFormed sound)⟩

end Faultless

theorem exists_within (start : d.start = g.start) (terminals : d.terminalSet = g.terminals)
    (nonterminals : d.nonterminalSet = g.nonterminals)
    (rules : (d.rules.map marked).Subperm (g.productions.map Production.rule))
    (keeps : ∃ rule ∈ d.rules, rule.1 = g.start) : ∃ h, d.grammar = .ok h ∧ h.Within g := by
  rw [← d.map_rule_productions] at rules
  have held : ∀ p ∈ d.productions, ∃ q ∈ g.productions, q.rule = p.rule := by
    intro p member
    exact List.mem_map.mp (rules.subset (List.mem_map_of_mem member))
  have nodup : (d.productions.map Production.rule).Nodup := by
    obtain ⟨kept, perm, sub⟩ := rules
    exact perm.nodup_iff.mp (g.nodup_rules.sublist sub)
  have sound : WellFormed d.start d.productions d.terminalSet d.nonterminalSet := by
    rw [start, terminals, nonterminals]
    refine ⟨d.index_productions, fun p => d.symbols_ne_nil_of_mem, ?_,
      g.wellFormed.terminal_unreserved, g.wellFormed.nonterminal_unreserved,
      g.wellFormed.disjoint, ?_, ?_, ?_, ?_⟩
    · intro p member
      obtain ⟨q, inside, same⟩ := held p member
      rw [← Production.symbols_eq_of_rule same]
      exact g.wellFormed.unmixed q inside
    · intro p member
      obtain ⟨q, inside, same⟩ := held p member
      rw [← Production.name_eq_of_rule same]
      exact g.wellFormed.name_declared q inside
    · intro p member
      obtain ⟨q, inside, same⟩ := held p member
      rw [← Production.symbols_eq_of_rule same]
      exact g.wellFormed.symbol_declared q inside
    · exact Production.nodup_rules_iff.mp nodup
    · obtain ⟨rule, inside, name⟩ := keeps
      obtain ⟨p, member, named, _⟩ := exists_production inside
      exact ⟨p, member, named.trans name⟩
  obtain ⟨h, made⟩ := d.exists_grammar_iff.mpr sound
  obtain ⟨start', productions, terminals', nonterminals'⟩ := of_grammar made
  refine ⟨h, made, start'.trans start, terminals'.trans terminals,
    nonterminals'.trans nonterminals, ?_⟩
  rwa [productions]

end Declaration

end TopDown
