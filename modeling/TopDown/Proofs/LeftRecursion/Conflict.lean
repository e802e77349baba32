import TopDown.Proofs.LL1
import TopDown.Proofs.Prediction
import TopDown.Proofs.Table.Outcome

namespace TopDown

open Shape

namespace Grammar

variable {g : Grammar} {s t x : Symbol} {cycle : List Symbol}

theorem LeftEdge.exists_body (edge : g.LeftEdge s t) : ∃ p ∈ g.productions, p.name = s ∧
    ∃ left right, p.symbols = left ++ t :: right ∧ p.body = left ++ t :: right ∧
      g.Derives left [] := by
  obtain ⟨p, rule, name, left, right, symbols, nonterminal, empty⟩ := edge
  have vanish : g.Derives left [] := by
    clear symbols
    induction left with
    | nil => exact Derives.refl []
    | cons r left ih =>
      have later := ih fun u member => empty u (List.mem_cons_of_mem r member)
      exact (empty r List.mem_cons_self).2.append later
  refine ⟨p, rule, name, left, right, symbols, ?_, vanish⟩
  rcases symbols_cases rule with ⟨alone, _⟩ | ⟨_, same⟩
  · rw [alone] at symbols
    obtain ⟨_, rfl, _⟩ := singleton_eq_append_cons symbols
    exact absurd rfl (nonterminal_ne_empty nonterminal)
  · rw [same, symbols]

theorem LeftEdge.nonterminal (edge : g.LeftEdge s t) : s ∈ g.nonterminals := by
  obtain ⟨p, rule, rfl, _⟩ := edge
  exact g.wellFormed.name_declared p rule

theorem LeftEdge.begins (edge : g.LeftEdge s t) (plain : x ≠ Symbol.empty)
    (begins : g.Begins [t] x) : g.Begins [s] x := by
  obtain ⟨p, rule, rfl, left, right, _, body, vanish⟩ := edge.exists_body
  have written : g.Begins p.body x := by
    rw [body]
    apply (begins.append plain right).of_derives
    exact vanish.append (Derives.refl (t :: right))
  exact written.of_derives (Derives.of_production rule)

theorem exists_tree {word : List Symbol} (terminals : g.IsWord word) (derives : g.Derives [s] word) :
    ∃ tree, g.IsDerivation tree ∧ tree.label = s ∧ tree.word = word := by
  obtain ⟨tree, forest⟩ := Forest.exists_single terminals derives
  obtain ⟨labels, trees, reads⟩ := forest.valid
  exact ⟨tree, trees tree (by simp), by simpa using labels, by simpa [forestWord] using reads⟩

theorem derives_of_below {children : List Shape} (plain : Symbol.empty ∉ children.map label)
    (below : ∀ c ∈ children, g.IsDerivation c) :
    g.Derives (children.map label) (forestWord children) := by
  have forest := forest_of_singles fun c member => (below c member).forest
  simpa only [Symbol.written_eq_self plain] using forest.derives

theorem exists_child {children : List Shape} {left right : List Symbol}
    (labels : children.map label = left ++ s :: right) (plain : Symbol.empty ∉ left ++ s :: right)
    (below : ∀ c ∈ children, g.IsDerivation c) :
    ∃ c ∈ children, c.label = s ∧ ∃ u v, forestWord children = u ++ (c.word ++ v) ∧
      g.Derives left u ∧ g.Derives [s] c.word ∧ g.Derives right v := by
  obtain ⟨front, rest, rfl, rfl, labelled⟩ := List.map_eq_append_iff.mp labels
  obtain ⟨c, back, rfl, rfl, rfl⟩ := List.map_eq_cons_iff.mp labelled
  simp only [List.mem_append, List.mem_cons, not_or] at plain
  refine ⟨c, by simp, rfl, forestWord front, forestWord back, ?_, ?_, ?_, ?_⟩
  · rw [forestWord_append, forestWord]
  · exact derives_of_below plain.1 fun t member => below t (by simp [member])
  · have single := (below c (by simp)).forest.derives
    rwa [Symbol.written_eq_self (by simpa using plain.2.1)] at single
  · exact derives_of_below plain.2.2 fun t member => below t (by simp [member])

theorem Separated.not_begins (separated : g.Separated) (reduced : g.Reduced) {p : Production}
    (rule : p ∈ g.productions) {left u v : List Symbol} (body : p.body = left ++ u ++ v)
    (vanish : g.Derives u []) (plain : x ≠ Symbol.empty) (begins : g.Begins u x) :
    ¬ g.Begins v x := by
  intro later
  obtain ⟨front, back, form⟩ := (reduced p.name (g.wellFormed.name_declared p rule)).1
  have whole : g.Derives [g.start] ((front ++ left) ++ u ++ (v ++ back)) :=
    form.trans (by simpa [body] using Derives.replace rule front back)
  exact separated.not_next whole vanish plain begins (Or.inl ⟨plain, later.append plain back⟩)

theorem Separated.starts_of_body (separated : g.Separated) (reduced : g.Reduced) {p : Production}
    (rule : p ∈ g.productions) {left right : List Symbol} (body : p.body = left ++ t :: right)
    (vanish : g.Derives left []) (terminal : x ∈ g.terminals) (begins : g.Begins [t] x)
    {u v w rest : List Symbol} (first : g.Derives left u) (middle : g.Derives [t] v)
    (last : g.Derives right w) (reads : u ++ (v ++ w) = x :: rest) : ∃ rest', v = x :: rest' := by
  have plain := terminal_ne_empty terminal
  cases u with
  | cons y u =>
    obtain ⟨rfl, _⟩ := List.cons_eq_cons.mp reads
    have early : g.Begins left y := Or.inr ⟨Or.inl terminal, u, first⟩
    have here := begins.append plain right
    have around : p.body = [] ++ left ++ t :: right := body
    exact absurd here (separated.not_begins reduced rule around vanish plain early)
  | nil =>
    cases v with
    | cons y v =>
      obtain ⟨rfl, _⟩ := List.cons_eq_cons.mp reads
      exact ⟨v, rfl⟩
    | nil =>
      have late : g.Begins right x := Or.inr ⟨Or.inl terminal, rest, reads ▸ last⟩
      have around : p.body = left ++ [t] ++ right := by simp [body]
      exact absurd late (separated.not_begins reduced rule around middle plain begins)

/-- A tree of a name on the cycle does not read a word that starts with the token that all these
names begin with. Such a tree would have a child that is another one. -/
theorem IsDerivation.not_starts (separated : g.Separated) (reduced : g.Reduced)
    (onward : ∀ s ∈ cycle, ∃ t ∈ cycle, g.LeftEdge s t) (terminal : x ∈ g.terminals)
    (begins : ∀ s ∈ cycle, g.Begins [s] x) {tree : Shape} (h : g.IsDerivation tree)
    (member : tree.label ∈ cycle) : ¬ ∃ rest, tree.word = x :: rest := by
  have plain := terminal_ne_empty terminal
  induction h with
  | empty =>
    intro ⟨rest, reads⟩
    rw [word_leaf_empty] at reads
    cases reads
  | terminal other =>
    obtain ⟨t, _, edge⟩ := onward _ member
    exact absurd edge.nonterminal (g.wellFormed.disjoint _ other)
  | @inner p rule children labels below ih =>
    intro ⟨rest, reads⟩
    change p.name ∈ cycle at member
    rw [word_node rule labels] at reads
    obtain ⟨t, next, edge⟩ := onward _ member
    obtain ⟨q, rule', name, left, right, symbols, body, vanish⟩ := edge.exists_body
    -- The token selects this production and that of the left edge, so they are one.
    have same : p = q := by
      have forest := forest_of_singles fun c inside => (below c inside).forest
      rw [labels, reads] at forest
      have there := (begins t next).append plain right
      have first : g.Predicts p x :=
        Or.inl ⟨plain, Or.inr ⟨Or.inl terminal, rest, forest.derives⟩⟩
      have second : g.Predicts q x :=
        Or.inl ⟨plain, body ▸ there.of_derives (vanish.append (Derives.refl (t :: right)))⟩
      exact separated p rule q rule' name.symm x first second
    subst same
    have unmarked : Symbol.empty ∉ left ++ t :: right := body ▸ Symbol.empty_not_mem_written _
    -- Hence a child of the node is a smaller tree of the next name on the cycle.
    obtain ⟨c, inside, label, u, v, split, before, middle, after⟩ :=
      exists_child (labels.trans symbols) unmarked below
    have starts := separated.starts_of_body reduced rule body vanish terminal (begins t next)
      before middle after (split.symm.trans reads)
    exact ih c inside (label ▸ next) starts

/-- If the names on the cycle derive no word but the empty one, they have no trees. What follows a
name selects every production of it. -/
theorem IsDerivation.not_mem (separated : g.Separated) (reduced : g.Reduced)
    (onward : ∀ s ∈ cycle, ∃ t ∈ cycle, g.LeftEdge s t)
    (silent : ∀ s ∈ cycle, ∀ word, g.IsWord word → g.Derives [s] word → word = [])
    {tree : Shape} (h : g.IsDerivation tree) : tree.label ∉ cycle := by
  induction h with
  | empty =>
    intro member
    obtain ⟨t, _, edge⟩ := onward _ member
    exact nonterminal_ne_empty edge.nonterminal rfl
  | terminal other =>
    intro member
    obtain ⟨t, _, edge⟩ := onward _ member
    exact g.wellFormed.disjoint _ other edge.nonterminal
  | @inner p rule children labels below ih =>
    intro member
    change p.name ∈ cycle at member
    have empty : ∀ q ∈ g.productions, q.name = p.name → g.Derives q.body [] := by
      intro q rule' name
      obtain ⟨word, isWord, derives⟩ :=
        exists_word reduced.productive fun s inside => mem_body rule' inside
      have whole := (Derives.of_production rule').trans derives
      rw [name] at whole
      exact silent _ member word isWord whole ▸ derives
    obtain ⟨front, back, form⟩ := (reduced p.name (g.wellFormed.name_declared p rule)).1
    have known := form.declared start_declared
    obtain ⟨word, isWord, later⟩ :=
      exists_word reduced.productive fun s (inside : s ∈ back) => known s (by simp [inside])
    obtain ⟨t, next, edge⟩ := onward _ member
    obtain ⟨q, rule', name, left, right, symbols, body, _⟩ := edge.exists_body
    have same : p = q := by
      have first := predicts_firstToken isWord form ((empty p rule rfl).append later)
      have second := predicts_firstToken isWord (name ▸ form) ((empty q rule' name).append later)
      exact separated p rule q rule' name.symm _ first second
    subst same
    have unmarked : Symbol.empty ∉ left ++ t :: right := body ▸ Symbol.empty_not_mem_written _
    obtain ⟨c, inside, label, _⟩ := exists_child (labels.trans symbols) unmarked below
    exact ih c inside (label ▸ next)

theorem Separated.not_circuit (separated : g.Separated) (reduced : g.Reduced) :
    ¬ IsCircuit g.LeftEdge cycle := by
  intro circuit
  have onward : ∀ s ∈ cycle, ∃ t ∈ cycle, g.LeftEdge s t := fun s => circuit.exists_next
  have nonterminal : ∀ s ∈ cycle, s ∈ g.nonterminals := by
    intro s member
    obtain ⟨t, _, edge⟩ := onward s member
    exact edge.nonterminal
  -- If one name on the cycle begins with a terminal, all do; else they derive the empty word only.
  by_cases starts : ∃ s ∈ cycle, ∃ x ∈ g.terminals, g.Begins [s] x
  · obtain ⟨s, member, x, terminal, begins⟩ := starts
    have plain := terminal_ne_empty terminal
    have all : ∀ t ∈ cycle, g.Begins [t] x :=
      circuit.forall_mem (fun _ _ edge => edge.begins plain) member begins
    rcases begins with ⟨mark, _⟩ | ⟨_, rest, derives⟩
    · exact plain mark
    · have known := derives.declared (declared_singleton (nonterminal s member))
      obtain ⟨word, isWord, later⟩ :=
        exists_word reduced.productive fun t inside => known t (List.mem_cons_of_mem x inside)
      have whole := derives.trans ((Derives.refl [x]).append later)
      obtain ⟨tree, isDerivation, rfl, reads⟩ := exists_tree (isWord.cons terminal) whole
      exact isDerivation.not_starts separated reduced onward terminal all member ⟨word, reads⟩
  · obtain ⟨s, member⟩ := circuit.exists_mem
    have silent : ∀ t ∈ cycle, ∀ word, g.IsWord word → g.Derives [t] word → word = [] := by
      intro t inside word isWord derives
      cases word with
      | nil => rfl
      | cons x rest =>
        have terminal := isWord x List.mem_cons_self
        exact absurd ⟨t, inside, x, terminal, Or.inr ⟨Or.inl terminal, rest, derives⟩⟩ starts
    obtain ⟨word, isWord, derives⟩ := reduced.productive s (nonterminal s member)
    obtain ⟨tree, isDerivation, rfl, _⟩ := exists_tree isWord derives
    exact isDerivation.not_mem separated reduced onward silent member

/-- Left recursion hides no table. If the search finds a cycle in a grammar without useless
nonterminals, a token selects two productions, and filling the table records a conflict. -/
theorem left_recursive_contested {a : Analysis} (reduced : g.Reduced)
    (analysed : g.analysis = .ok a) (cyclic : a.leftRecursion = .ok (some cycle)) :
    a.Contested ∧ ∃ d, a.draft = .ok d ∧ d.conflicts ≠ [] := by
  obtain ⟨a', analysed', of⟩ := Analysis.analysis_ok g
  rw [analysed] at analysed'
  cases analysed'
  obtain ⟨found, searched, sound⟩ := Analysis.leftRecursion_ok of
  rw [cyclic] at searched
  cases searched
  have mixed : ¬ g.Separated := fun separated => separated.not_circuit reduced (sound cycle rfl)
  obtain ⟨d, drafted, _⟩ := Analysis.draft_ok of
  refine ⟨(Analysis.contested_iff of).mpr mixed, d, drafted, ?_⟩
  exact fun free => mixed ((Analysis.conflicts_eq_nil_iff of drafted).mp free)

end Grammar

namespace Sample

def hidden : Declaration where
  start := "S"
  rules := [("S", ["A", "S", "b"]), ("S", ["c"]), ("A", ["a"]), ("A", [Symbol.empty])]
  terminals := none
  nonterminals := none

def hiddenGrammar : Grammar :=
  ⟨hidden.start, hidden.productions, hidden.terminalSet, hidden.nonterminalSet,
    hidden.wellFormed_of_fault (by decide +kernel)⟩

theorem hidden_reduced : hiddenGrammar.Reduced := by
  have names : hiddenGrammar.nonterminals.toList = ["A", "S"] := by decide +kernel
  have pair : hiddenGrammar.Derives ["S"] ["A", "S", "b"] :=
    Grammar.Derives.of_production (p := ⟨"S", ["A", "S", "b"], 0⟩) (by decide +kernel)
  have single : hiddenGrammar.Derives ["S"] ["c"] :=
    Grammar.Derives.of_production (p := ⟨"S", ["c"], 1⟩) (by decide +kernel)
  have none : hiddenGrammar.Derives ["A"] [] :=
    Grammar.Derives.of_production (p := ⟨"A", [Symbol.empty], 3⟩) (by decide +kernel)
  have terminal : "c" ∈ hiddenGrammar.terminals := by decide +kernel
  intro s member
  rw [← SymbolSet.mem_toList, names] at member
  simp only [List.mem_cons, List.not_mem_nil, or_false] at member
  rcases member with rfl | rfl
  · exact ⟨⟨[], ["S", "b"], pair⟩, [], Grammar.isWord_nil, none⟩
  · have start : hiddenGrammar.Reachable "S" := ⟨[], [], Grammar.Derives.refl ["S"]⟩
    exact ⟨start, ["c"], Grammar.isWord_nil.cons terminal, single⟩

theorem hidden_contested : ∃ a, hiddenGrammar.analysis = .ok a ∧
    a.leftRecursion = .ok (some ["S", "S"]) ∧ a.Contested ∧
      ∃ d, a.draft = .ok d ∧ d.conflicts ≠ [] := by
  have searched : (hiddenGrammar.analysis.toOption.map fun a => a.leftRecursion.toOption) =
      some (some (some ["S", "S"])) := by decide +kernel
  cases analysed : hiddenGrammar.analysis with
  | error e => simp [analysed, Except.toOption] at searched
  | ok a =>
    have cyclic : a.leftRecursion = .ok (some ["S", "S"]) := by
      cases found : a.leftRecursion with
      | error e => simp [analysed, found, Except.toOption] at searched
      | ok cycle => simpa [analysed, found, Except.toOption] using searched
    exact ⟨a, rfl, cyclic, Grammar.left_recursive_contested hidden_reduced analysed cyclic⟩

end Sample

end TopDown
