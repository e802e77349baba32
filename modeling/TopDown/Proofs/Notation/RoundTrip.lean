import TopDown.Proofs.LL1
import TopDown.Proofs.Notation.Gather
import TopDown.Proofs.Notation.RuleForm

namespace TopDown

open Notation

namespace Notation.Gathered

/-- The gathered rules are those of the named nonterminals, and the gathered terminals are terminals
of the grammar. -/
structure Copies (found : Gathered) (g : Grammar) (ident : Symbol → String) (names : List Symbol) :
    Prop where
  rules_eq : found.rules = names.map fun s => (node ident s, g.atomsOf ident s)
  nodup : names.Nodup
  known : ∀ s ∈ names, s ∈ g.nonterminals
  terminals_nodup : found.terminals.Nodup
  terminals_known : ∀ t ∈ found.terminals, ∃ s ∈ g.terminals, t = leaf ident s

variable {found : Gathered} {g : Grammar} {ident : Symbol → String} {names : List Symbol}
  {s : Symbol} {n : Nonterminal} {t : Terminal} {a : Atom}

theorem mem_atomsOf_flatten : a ∈ (g.atomsOf ident s).flatten ↔
    ∃ p ∈ g.productions, p.name = s ∧ ∃ x ∈ p.body, g.atomOf ident x = a := by
  simp [Grammar.atomsOf, Grammar.productionsOf, and_assoc]

theorem exists_nonterminal (inside : .nonterminal n ∈ (g.atomsOf ident s).flatten) :
    ∃ x ∈ g.nonterminals, n = node ident x := by
  obtain ⟨p, member, _, x, written, same⟩ := mem_atomsOf_flatten.mp inside
  rcases Grammar.mem_body member written with terminal | nonterminal
  · rw [Grammar.atomOf_terminal ident terminal] at same
    cases same
  · rw [Grammar.atomOf_nonterminal ident nonterminal] at same
    cases same
    exact ⟨x, nonterminal, rfl⟩

theorem exists_terminal (inside : .terminal t ∈ (g.atomsOf ident s).flatten) :
    ∃ x ∈ g.terminals, t = leaf ident x := by
  obtain ⟨p, member, _, x, written, same⟩ := mem_atomsOf_flatten.mp inside
  rcases Grammar.mem_body member written with terminal | nonterminal
  · rw [Grammar.atomOf_terminal ident terminal] at same
    cases same
    exact ⟨x, terminal, rfl⟩
  · rw [Grammar.atomOf_nonterminal ident nonterminal] at same
    cases same

theorem node_inj {s t : Symbol} (same : node ident s = node ident t) : s = t :=
  congrArg Nonterminal.name same

namespace Copies

theorem nonterminals_eq (copies : found.Copies g ident names) :
    found.nonterminals = names.map (node ident) := by
  rw [nonterminals, copies.rules_eq, List.map_map]
  rfl

theorem mem_names (copies : found.Copies g ident names) :
    node ident s ∈ found.nonterminals ↔ s ∈ names := by
  rw [copies.nonterminals_eq, List.mem_map]
  constructor
  · rintro ⟨t, member, same⟩
    exact node_inj same ▸ member
  · exact fun member => ⟨s, member, rfl⟩

theorem length_eq (copies : found.Copies g ident names) : found.rules.length = names.length := by
  rw [copies.rules_eq, List.length_map]

theorem length_le (copies : found.Copies g ident names) : names.length ≤ g.nonterminals.size :=
  (copies.nodup.subperm copies.known).length_le

theorem add (copies : found.Copies g ident names) (nonterminal : s ∈ g.nonterminals)
    (fresh : node ident s ∉ found.nonterminals) :
    (found.add (node ident s) (g.atomsOf ident s)).Copies g ident (names ++ [s]) where
  rules_eq := by rw [rules_add, copies.rules_eq, List.map_append, List.map_singleton]
  nodup := by
    refine List.nodup_append.mpr ⟨copies.nodup, List.nodup_singleton s, ?_⟩
    intro t member u single same
    rw [List.mem_singleton.mp single] at same
    exact fresh (copies.mem_names.mpr (same ▸ member))
  known := by
    intro t member
    rcases List.mem_append.mp member with before | here
    · exact copies.known t before
    · exact List.mem_singleton.mp here ▸ nonterminal
  terminals_nodup := nodup_terminals_add copies.terminals_nodup
  terminals_known := by
    intro t member
    rcases mem_terminals_add.mp member with before | new
    · exact copies.terminals_known t before
    · exact exists_terminal new

theorem calm (copies : found.Copies g ident names) : found.clash = none := by
  have apart : found.nonterminals.Pairwise fun m n => m.name ≠ n.name := by
    rw [copies.nonterminals_eq, List.pairwise_map]
    exact copies.nodup
  have apart' : found.terminals.Pairwise fun t u => t.name ≠ u.name := by
    refine copies.terminals_nodup.imp_of_mem fun {t u} first second different => ?_
    obtain ⟨x, _, rfl⟩ := copies.terminals_known t first
    obtain ⟨y, _, rfl⟩ := copies.terminals_known u second
    exact fun same => different (congrArg (leaf ident) same)
  have unlike : ∀ n ∈ found.nonterminals, ∀ t ∈ found.terminals, n.name ≠ t.name := by
    intro n first t second
    rw [copies.nonterminals_eq] at first
    obtain ⟨x, member, rfl⟩ := List.mem_map.mp first
    obtain ⟨y, terminal, rfl⟩ := copies.terminals_known t second
    rintro (rfl : x = y)
    exact g.wellFormed.disjoint x terminal (copies.known x member)
  have rules : ruleClash [] found.nonterminals = none := ruleClash_eq_none apart
  have terminals : terminalClash found.nonterminals [] found.terminals = none :=
    terminalClash_eq_none apart' unlike
  rw [clash, rules, terminals]
  rfl

end Copies

end Notation.Gathered

namespace Notation.Rulebook

open Gathered

variable {b : Rulebook} {g : Grammar} {ident : Symbol → String} {found : Gathered}
  {names : List Symbol} {pending : List Nonterminal} {s : Symbol}

def Copying (g : Grammar) (ident : Symbol → String) (b : Rulebook) (pending : List Nonterminal)
    (found : Gathered) : Prop :=
  b.Forms g ident ∧ (∃ names, found.Copies g ident names) ∧
    ∀ n ∈ pending, ∃ s ∈ g.nonterminals, n = node ident s

theorem Copying.stepKeeps (defined : ∀ s ∈ g.nonterminals, g.productionsOf s ≠ []) :
    StepKeeps (Copying g ident) := by
  rintro b pending found n rest alternatives ⟨forms, ⟨names, copies⟩, known⟩ due asked
  obtain ⟨s, member, rfl⟩ := known n (due.pending_of_mem n List.mem_cons_self)
  obtain ⟨b', answer, forms'⟩ := forms.body member (defined s member)
  rw [answer] at asked ⊢
  cases asked
  refine ⟨forms', ⟨names ++ [s], copies.add member due.new⟩, fun m inside => ?_⟩
  rcases List.mem_append.mp inside with new | old
  · have held := (List.mem_filter.mp (List.mem_reverse.mp new)).1
    exact exists_nonterminal (mem_nonterminalsIn.mp held)
  · exact known m (due.pending_of_mem m (List.mem_cons_of_mem _ old))

theorem Forms.visit (forms : b.Forms g ident) (copies : found.Copies g ident names)
    (defined : ∀ s ∈ g.nonterminals, g.productionsOf s ≠ [])
    (due : ∀ n ∈ pending, ∃ s ∈ g.nonterminals, n = node ident s) (bound : Nat)
    (room : g.nonterminals.size < names.length + bound) :
    ∃ b' found' names', Rulebook.visit bound pending found b = (b', .ok found') ∧
      found'.Copies g ident names' := by
  have ended := visit_ends (Copying.stepKeeps defined) bound ⟨forms, ⟨names, copies⟩, due⟩
  rw [copies.length_eq] at ended
  cases visited : Rulebook.visit bound pending found b with
  | mk b' answer =>
    rw [visited] at ended
    cases ended with
    | settled holds =>
      obtain ⟨_, ⟨names', copies'⟩, _⟩ := holds
      exact ⟨b', _, names', rfl, copies'⟩
    | unsettled holds length =>
      obtain ⟨_, ⟨names', copies'⟩, _⟩ := holds
      have most := copies'.length_le
      rw [copies'.length_eq] at length
      omega
    | failed holds next asked =>
      -- A rule of the grammar always answers.
      obtain ⟨forms', _, known⟩ := holds
      obtain ⟨s, member, rfl⟩ := known _ (next.pending_of_mem _ List.mem_cons_self)
      obtain ⟨_, answer, _⟩ := forms'.body member (defined s member)
      rw [answer] at asked
      cases asked

theorem Forms.gather (forms : b.Forms g ident) (unasked : b.bodies = [])
    (defined : ∀ s ∈ g.nonterminals, g.productionsOf s ≠ [])
    (room : g.nonterminals.size < b.visitBound) :
    ∃ b' found names, b.gather (node ident g.start) = (b', .ok found) ∧
      found.Copies g ident names ∧ Complete b' (node ident g.start) found := by
  have initial : Copies ⟨[], []⟩ g ident [] :=
    ⟨rfl, List.nodup_nil, by simp, List.nodup_nil, by simp⟩
  have due : ∀ n ∈ [node ident g.start], ∃ s ∈ g.nonterminals, n = node ident s :=
    fun n single => ⟨g.start, g.start_mem, List.mem_singleton.mp single⟩
  obtain ⟨b', found, names, visited, copies⟩ :=
    forms.visit initial defined due b.visitBound (by simpa using room)
  have gathered : b.gather (node ident g.start) = (b', .ok found) := by
    simp only [Rulebook.gather, visited, copies.calm]
  have faithful : b.Faithful := (Later.now.spec unasked).2
  exact ⟨b', found, names, gathered, copies, (gather_spec faithful gathered).2⟩

theorem Complete.knows (complete : Complete b (node ident g.start) found)
    (copies : found.Copies g ident names) {form : List Symbol} (derives : g.Derives [g.start] form) :
    ∀ s ∈ form, found.Knows (g.atomOf ident s) := by
  -- A step writes the body of a name that is known, and what is gathered is closed.
  induction derives with
  | refl =>
    intro s single
    rw [List.mem_singleton.mp single, Grammar.atomOf_nonterminal ident g.start_mem]
    exact complete.start_mem
  | tail _ step ih =>
    cases step with
    | @replace p member left right =>
      intro s inside
      rw [List.append_assoc] at inside
      rcases List.mem_append.mp inside with before | inside
      · exact ih s (List.mem_append_left _ before)
      · rcases List.mem_append.mp inside with here | after
        · have name := g.wellFormed.name_declared p member
          have above := ih p.name (List.mem_append_right _ List.mem_cons_self)
          rw [Grammar.atomOf_nonterminal ident name] at above
          have rule : (node ident p.name, g.atomsOf ident p.name) ∈ found.rules := by
            rw [copies.rules_eq]
            exact List.mem_map_of_mem (copies.mem_names.mp above)
          have alternative : p.body.map (g.atomOf ident) ∈ g.atomsOf ident p.name :=
            List.mem_map_of_mem (by simp [Grammar.productionsOf, member])
          exact complete.closed _ rule _ alternative _ (List.mem_map_of_mem here)
        · exact ih s (List.mem_append_right _ (List.mem_cons_of_mem _ after))

theorem Complete.mem_names (complete : Complete b (node ident g.start) found)
    (copies : found.Copies g ident names) (nonterminal : s ∈ g.nonterminals)
    (reachable : g.Reachable s) : s ∈ names := by
  obtain ⟨left, right, derives⟩ := reachable
  have knows := complete.knows copies derives s (by simp)
  rw [Grammar.atomOf_nonterminal ident nonterminal] at knows
  exact copies.mem_names.mp knows

theorem Complete.leaf_mem (complete : Complete b (node ident g.start) found)
    (copies : found.Copies g ident names) (terminal : s ∈ g.terminals) {p : Production}
    (rule : p ∈ g.productions) (inside : s ∈ p.symbols) (reachable : g.Reachable p.name) :
    leaf ident s ∈ found.terminals := by
  have written : s ∈ p.body := by
    rw [Production.body, Symbol.written, List.mem_filter]
    exact ⟨inside, by simpa using Grammar.terminal_ne_empty terminal⟩
  obtain ⟨left, right, derives⟩ := reachable
  have expanded := derives.trans (Grammar.Derives.replace rule left right)
  have knows := complete.knows copies expanded s (by simp [written])
  rw [Grammar.atomOf_terminal ident terminal] at knows
  exact knows

theorem size_lt_visitBound {terminals nonterminals : List Symbol}
    (names : ∀ s, s ∈ nonterminals ↔ s ∈ g.nonterminals) :
    g.nonterminals.size < (g.ruleForm ident terminals nonterminals).visitBound := by
  have fits : g.nonterminals.size ≤ nonterminals.length :=
    (g.nonterminals.nodup.subperm fun s member => (names s).mpr member).length_le
  simp only [visitBound, Grammar.ruleForm, ofDefinitions, List.length_reverse, List.length_map]
  omega

end Notation.Rulebook

namespace Grammar

variable {g h : Grammar} {ident : Symbol → String} {s : Symbol} {p : Production}
  {names : List Symbol}

theorem map_rule_productionsOf (g : Grammar) (s : Symbol) :
    (g.productionsOf s).map Production.rule = (g.productions.map Production.rule).filter (·.1 == s) := by
  rw [List.filter_map]
  rfl

theorem fst_of_mem_rules {rule : Symbol × List Symbol}
    (member : rule ∈ (g.productionsOf s).map Production.rule) : rule.1 = s := by
  rw [map_rule_productionsOf] at member
  exact beq_iff_eq.mp (List.mem_filter.mp member).2

theorem nodup_flatMap_rules (g : Grammar) (nodup : names.Nodup) :
    (names.flatMap fun s => (g.productionsOf s).map Production.rule).Nodup := by
  rw [List.nodup_flatMap]
  constructor
  · intro s _
    rw [map_rule_productionsOf]
    exact g.nodup_rules.filter _
  · refine nodup.imp fun {s t} different => ?_
    intro rule first second
    exact different ((fst_of_mem_rules first).symm.trans (fst_of_mem_rules second))

theorem flatMap_rules_subset (g : Grammar) (names : List Symbol) :
    (names.flatMap fun s => (g.productionsOf s).map Production.rule) ⊆
      g.productions.map Production.rule := by
  intro rule member
  obtain ⟨s, _, inside⟩ := List.mem_flatMap.mp member
  rw [map_rule_productionsOf] at inside
  exact (List.mem_filter.mp inside).1

theorem filter_flatMap_rules (g : Grammar) (nodup : names.Nodup) (member : s ∈ names) :
    (names.flatMap fun t => (g.productionsOf t).map Production.rule).filter (·.1 == s) =
      (g.productionsOf s).map Production.rule := by
  have others : ∀ ts : List Symbol, s ∉ ts →
      (ts.flatMap fun t => (g.productionsOf t).map Production.rule).filter (·.1 == s) = [] := by
    intro ts absent
    rw [List.filter_eq_nil_iff]
    intro rule inside same
    obtain ⟨t, held, here⟩ := List.mem_flatMap.mp inside
    rw [fst_of_mem_rules here, beq_iff_eq] at same
    exact absent (same ▸ held)
  obtain ⟨front, back, rfl⟩ := List.append_of_mem member
  obtain ⟨_, after, apart⟩ := List.nodup_append.mp nodup
  have before : s ∉ front := fun inside => apart s inside s List.mem_cons_self rfl
  rw [List.flatMap_append, List.flatMap_cons, List.filter_append, List.filter_append,
    others front before, others back (List.nodup_cons.mp after).1, List.nil_append, List.append_nil,
    map_rule_productionsOf, List.filter_filter]
  simp only [Bool.and_self]

theorem marked_body (member : p ∈ g.productions) : Declaration.marked (p.name, p.body) = p.rule := by
  rcases symbols_cases member with ⟨alone, empty⟩ | ⟨_, whole⟩
  · rw [Declaration.marked, empty, Production.rule, alone]
    rfl
  · have some := g.wellFormed.symbols_ne_nil p member
    rw [Declaration.marked, whole, Production.rule]
    simp [some]

end Grammar

namespace Notation.Gathered.Copies

variable {g : Grammar} {ident : Symbol → String} {found : Gathered} {names : List Symbol}
  {start : Nonterminal}

theorem rules_declaration (copies : found.Copies g ident names) :
    (found.declaration start).rules.map Declaration.marked =
      names.flatMap fun s => (g.productionsOf s).map Production.rule := by
  rw [declaration, copies.rules_eq, List.flatMap_map, List.map_flatMap]
  congr 1
  funext s
  rw [Grammar.atomsOf, List.map_map, List.map_map]
  apply List.map_congr_left
  intro p inside
  obtain ⟨member, name⟩ := List.mem_filter.mp inside
  rw [← Grammar.marked_body member, beq_iff_eq.mp name]
  simp [node, Grammar.atomOf_name, Function.comp_def]

theorem terminalSet_declaration (copies : found.Copies g ident names)
    (leaves : ∀ s ∈ g.terminals, leaf ident s ∈ found.terminals) :
    (found.declaration start).terminalSet = g.terminals := by
  ext s
  simp only [Declaration.terminalSet, declaration, Option.getD_some, SymbolSet.mem_ofList,
    List.mem_map]
  constructor
  · rintro ⟨t, member, rfl⟩
    obtain ⟨x, terminal, rfl⟩ := copies.terminals_known t member
    exact terminal
  · exact fun terminal => ⟨_, leaves s terminal, rfl⟩

theorem nonterminalSet_declaration (copies : found.Copies g ident names)
    (all : ∀ s ∈ g.nonterminals, s ∈ names) :
    (found.declaration start).nonterminalSet = g.nonterminals := by
  ext s
  simp only [Declaration.nonterminalSet, declaration, Option.getD_some, SymbolSet.mem_ofList,
    copies.nonterminals_eq, List.map_map, List.mem_map]
  constructor
  · rintro ⟨x, member, rfl⟩
    exact copies.known x member
  · exact fun nonterminal => ⟨s, all s nonterminal, rfl⟩

theorem exists_rule_start (copies : found.Copies g ident names)
    (all : ∀ s ∈ g.nonterminals, s ∈ names) :
    ∃ rule ∈ (found.declaration start).rules, rule.1 = g.start := by
  obtain ⟨p, member, name⟩ := g.wellFormed.start_defined
  have held : p.rule ∈ names.flatMap fun s => (g.productionsOf s).map Production.rule :=
    List.mem_flatMap.mpr ⟨g.start, all g.start g.start_mem,
      List.mem_map_of_mem (by simp [Grammar.productionsOf, member, name])⟩
  rw [← copies.rules_declaration] at held
  obtain ⟨rule, written, same⟩ := List.mem_map.mp held
  exact ⟨rule, written, (Prod.mk.inj same).1.trans name⟩

theorem productionsOf_eq {h : Grammar} {s : Symbol} (copies : found.Copies g ident names)
    (member : s ∈ names) (made : (found.declaration start).grammar = .ok h) :
    (h.productionsOf s).map (·.symbols) = (g.productionsOf s).map (·.symbols) := by
  obtain ⟨_, productions, _⟩ := Declaration.of_grammar made
  have same : (h.productionsOf s).map Production.rule = (g.productionsOf s).map Production.rule := by
    rw [h.map_rule_productionsOf, productions, Declaration.map_rule_productions,
      copies.rules_declaration, g.filter_flatMap_rules copies.nodup member]
  have sides := congrArg (List.map Prod.snd) same
  simpa [Function.comp_def, Production.rule] using sides

theorem exists_grammar (copies : found.Copies g ident names)
    (all : ∀ s ∈ g.nonterminals, s ∈ names)
    (leaves : ∀ s ∈ g.terminals, leaf ident s ∈ found.terminals) :
    ∃ h, (found.declaration (node ident g.start)).grammar = .ok h ∧ h.start = g.start ∧
      h.terminals = g.terminals ∧ h.nonterminals = g.nonterminals ∧
      ∀ s, (h.alternatives? s).map (·.map (·.symbols)) =
        (g.alternatives? s).map (·.map (·.symbols)) := by
  have rules : ((found.declaration (node ident g.start)).rules.map Declaration.marked).Subperm
      (g.productions.map Production.rule) := by
    rw [copies.rules_declaration]
    exact (g.nodup_flatMap_rules copies.nodup).subperm (g.flatMap_rules_subset names)
  obtain ⟨h, made, within⟩ := Declaration.exists_within rfl
    (copies.terminalSet_declaration leaves) (copies.nonterminalSet_declaration all) rules
    (copies.exists_rule_start all)
  refine ⟨h, made, within.start_eq, within.terminals_eq, within.nonterminals_eq, fun s => ?_⟩
  unfold Grammar.alternatives?
  rw [within.nonterminals_eq]
  split
  · rename_i member
    exact congrArg some (copies.productionsOf_eq (all s member) made)
  · rfl

end Notation.Gathered.Copies

namespace Grammar

/-- A grammar that is written as rules is the same grammar. -/
theorem grammar_ruleForm (g : Grammar) {ident : Symbol → String} {terminals nonterminals : List Symbol}
    (leaves : ∀ s, s ∈ terminals ↔ s ∈ g.terminals)
    (names : ∀ s, s ∈ nonterminals ↔ s ∈ g.nonterminals)
    (apart : ∀ s t, s ∈ g.terminals ∨ s ∈ g.nonterminals → t ∈ g.terminals ∨ t ∈ g.nonterminals →
      ident s = ident t → s = t)
    (named : ¬ "" ∈ g.nonterminals)
    (defined : ∀ s ∈ g.nonterminals, ∃ p ∈ g.productions, p.name = s)
    (reachable : ∀ s ∈ g.nonterminals, g.Reachable s)
    (occurs : ∀ s ∈ g.terminals, ∃ p ∈ g.productions, s ∈ p.symbols) :
    ∃ n h, (g.ruleForm ident terminals nonterminals).findNonterminal (ident g.start) = .ok n ∧
      ((g.ruleForm ident terminals nonterminals).grammar n).2 = .ok h ∧
      h.start = g.start ∧ h.terminals = g.terminals ∧ h.nonterminals = g.nonterminals ∧
      ∀ s, (h.alternatives? s).map (·.map (·.symbols)) =
        (g.alternatives? s).map (·.map (·.symbols)) := by
  have forms := forms_ruleForm leaves names named apart
  have defined' : ∀ s ∈ g.nonterminals, g.productionsOf s ≠ [] := by
    intro s member none
    obtain ⟨p, rule, name⟩ := defined s member
    have inside : p ∈ g.productionsOf s := by simp [productionsOf, rule, name]
    rw [none] at inside
    cases inside
  obtain ⟨b', found, visited, gathered, copies, complete⟩ :=
    forms.gather rfl defined' (Rulebook.size_lt_visitBound names)
  have all : ∀ s ∈ g.nonterminals, s ∈ visited :=
    fun s member => complete.mem_names copies member (reachable s member)
  have leaves' : ∀ s ∈ g.terminals, leaf ident s ∈ found.terminals := by
    intro s member
    obtain ⟨p, rule, inside⟩ := occurs s member
    have above := reachable p.name (g.wellFormed.name_declared p rule)
    exact complete.leaf_mem copies member rule inside above
  obtain ⟨h, made, same⟩ := copies.exists_grammar all leaves'
  refine ⟨node ident g.start, h, ?_, ?_, same⟩
  · have bound := forms.bound g.start (Or.inr g.start_mem)
    rw [atomOf_nonterminal ident g.start_mem] at bound
    simp only [Rulebook.findNonterminal, Rulebook.find, bound]
  · simp only [Rulebook.grammar, gathered, made]

end Grammar

namespace Sample

theorem textbook_grammar_ruleForm :
    ∃ n h, (textbookGrammar.ruleForm (· ++ "_rule") ["a", "b", "c"] ["B", "A", "S"]).findNonterminal
        "S_rule" = .ok n ∧
      ((textbookGrammar.ruleForm (· ++ "_rule") ["a", "b", "c"] ["B", "A", "S"]).grammar n).2 =
        .ok h ∧
      h.start = "S" ∧ h.terminals = textbookGrammar.terminals ∧
      h.nonterminals = textbookGrammar.nonterminals ∧
      ∀ s, (h.alternatives? s).map (·.map (·.symbols)) =
        (textbookGrammar.alternatives? s).map (·.map (·.symbols)) := by
  have terminals : SymbolSet.ofList ["a", "b", "c"] = textbookGrammar.terminals := by decide +kernel
  have nonterminals : SymbolSet.ofList ["B", "A", "S"] = textbookGrammar.nonterminals := by
    decide +kernel
  have defined : ∀ s ∈ textbookGrammar.nonterminals.toList,
      ∃ p ∈ textbookGrammar.productions, p.name = s := by decide +kernel
  have occurs : ∀ s ∈ textbookGrammar.terminals.toList,
      ∃ p ∈ textbookGrammar.productions, s ∈ p.symbols := by decide +kernel
  exact Grammar.grammar_ruleForm textbookGrammar (fun s => by rw [← terminals, SymbolSet.mem_ofList])
    (fun s => by rw [← nonterminals, SymbolSet.mem_ofList])
    (fun s t _ _ same => String.append_left_inj _ |>.mp same) (by decide +kernel) defined
    (fun s member => (textbook_reduced s member).1) occurs

end Sample

end TopDown
