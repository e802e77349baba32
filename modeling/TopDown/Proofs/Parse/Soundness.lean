import TopDown.Proofs.Parse.Termination
import TopDown.Proofs.Tree.Walk

namespace TopDown

namespace Tree

inductive Within : Tree → Tree → Prop
  | here {t} : Within t t
  | under {u c value start stop children} (member : c ∈ children) (inside : Within u c) :
    Within u (.node value start stop children)

def Contiguous : Int → List Tree → Int → Prop
  | i, [], j => i = j
  | i, t :: rest, j => t.start = i ∧ Contiguous t.stop rest j

theorem Contiguous.ends {i j : Int} {before : List Tree} {last : Tree}
    (h : Contiguous i (before ++ [last]) j) :
    (before.head?.getD last).start = i ∧ last.stop = j := by
  induction before generalizing i with
  | nil => exact h
  | cons t rest ih => exact ⟨h.1, (ih h.2).2⟩

end Tree

/-- An inner node is a production and covers what its children cover; a leaf is empty or a token. -/
structure Tree.Sound (g : Grammar) (tokens : List Symbol) (u : Tree) : Prop where
  inner : u.children ≠ [] →
    ∃ p ∈ g.productions, p.name = u.value ∧ p.symbols = u.children.map Tree.value
  spans : u.children ≠ [] → Tree.Contiguous u.start u.children u.stop
  leaf : u.children = [] → (u.value = Symbol.empty ∧ u.stop = u.start) ∨
    (u.value ∈ g.terminals ∧ u.stop = u.start + 1 ∧
      ∃ i : Nat, u.start = i ∧ tokens[i]? = some u.value)

structure Tree.IsParse (g : Grammar) (tokens : List Symbol) (t : Tree) : Prop where
  value_eq : t.value = g.start
  start_eq : t.start = 0
  stop_eq : t.stop = tokens.length
  sound : ∀ u : Tree, u.Within t → u.Sound g tokens
  leaves_eq : t.leaves = tokens

namespace Grammar

/-- Trees of the symbols of a list, side by side, over the tokens from a place to a place. -/
inductive Spells (g : Grammar) (tokens : List Symbol) :
    Nat → List Symbol → List Tree → Nat → Prop
  | nil {i} : Spells g tokens i [] [] i
  | empty {i j symbols trees} (rest : Spells g tokens i symbols trees j) :
    Spells g tokens i (Symbol.empty :: symbols) (.node Symbol.empty i i [] :: trees) j
  | token {i j s symbols trees} (terminal : s ∈ g.terminals) (there : tokens[i]? = some s)
    (rest : Spells g tokens (i + 1) symbols trees j) :
    Spells g tokens i (s :: symbols) (.node s i (i + 1) [] :: trees) j
  | inner {i k j symbols trees children} {p : Production} (rule : p ∈ g.productions)
    (below : Spells g tokens i p.symbols children k) (rest : Spells g tokens k symbols trees j) :
    Spells g tokens i (p.name :: symbols) (.node p.name i k children :: trees) j

variable {g : Grammar} {tokens symbols : List Symbol} {trees : List Tree} {i j k : Nat}

namespace Spells

theorem append {more : List Symbol} {others : List Tree}
    (first : g.Spells tokens i symbols trees k) (second : g.Spells tokens k more others j) :
    g.Spells tokens i (symbols ++ more) (trees ++ others) j := by
  induction first with
  | nil => exact second
  | empty _ ih => exact .empty (ih second)
  | token terminal there _ ih => exact .token terminal there (ih second)
  | inner rule below _ _ ih => exact .inner rule below (ih second)

theorem values (h : g.Spells tokens i symbols trees j) : trees.map Tree.value = symbols := by
  induction h with
  | nil => rfl
  | empty _ ih => simp [Tree.value, ih]
  | token _ _ _ ih => simp [Tree.value, ih]
  | inner _ _ _ _ ih => simp [Tree.value, ih]

theorem contiguous (h : g.Spells tokens i symbols trees j) : Tree.Contiguous i trees j := by
  induction h with
  | nil => rfl
  | empty _ ih => exact ⟨rfl, ih⟩
  | token _ _ _ ih => exact ⟨rfl, ih⟩
  | inner _ _ _ _ ih => exact ⟨rfl, ih⟩

theorem forest (h : g.Spells tokens i symbols trees j) :
    ∃ word, g.Forest symbols (Tree.shapes trees) word ∧ tokens.drop i = word ++ tokens.drop j := by
  induction h with
  | nil => exact ⟨[], .nil, rfl⟩
  | empty _ ih =>
    obtain ⟨word, forest, reads⟩ := ih
    exact ⟨word, .empty forest, reads⟩
  | token terminal there _ ih =>
    obtain ⟨word, forest, reads⟩ := ih
    obtain ⟨bound, here⟩ := List.getElem?_eq_some_iff.mp there
    refine ⟨_ :: word, .terminal terminal forest, ?_⟩
    rw [List.drop_eq_getElem_cons bound, here, reads, List.cons_append]
  | inner rule _ _ below rest =>
    obtain ⟨first, forest, reads⟩ := below
    obtain ⟨second, forest', reads'⟩ := rest
    refine ⟨first ++ second, .inner rule forest forest', ?_⟩
    rw [reads, reads', List.append_assoc]

theorem sound (h : g.Spells tokens i symbols trees j) :
    ∀ t ∈ trees, ∀ u : Tree, u.Within t → u.Sound g tokens := by
  induction h with
  | nil => simp
  | empty _ ih =>
    intro t member u within
    rcases List.mem_cons.mp member with rfl | member
    · cases within with
      | here => exact ⟨absurd rfl, absurd rfl, fun _ => Or.inl ⟨rfl, rfl⟩⟩
      | under inside => cases inside
    · exact ih t member u within
  | token terminal there _ ih =>
    intro t member u within
    rcases List.mem_cons.mp member with rfl | member
    · cases within with
      | here =>
        exact ⟨absurd rfl, absurd rfl, fun _ => Or.inr ⟨terminal, rfl, _, rfl, there⟩⟩
      | under inside => cases inside
    · exact ih t member u within
  | @inner _ _ _ _ _ children p rule below _ belowIh ih =>
    intro t member u within
    rcases List.mem_cons.mp member with rfl | member
    · cases within with
      | here =>
        refine ⟨fun _ => ⟨p, rule, rfl, below.values.symm⟩, fun _ => below.contiguous, ?_⟩
        intro bare
        have none : children = [] := bare
        have labels := below.values
        rw [none] at labels
        exact absurd labels.symm (g.wellFormed.symbols_ne_nil p rule)
      | under inside within => exact belowIh _ inside u within
    · exact ih t member u within

theorem close {p : Production} (rule : p ∈ g.productions) {last : Tree}
    (below : g.Spells tokens i p.symbols (trees ++ [last]) j) :
    g.Spells tokens i [p.name] [.inner p.name trees last] j := by
  obtain ⟨first, final⟩ := below.contiguous.ends
  rw [Tree.inner, first, final]
  exact .inner rule below .nil

end Spells

/-- The frames around a symbol whose tree will start at a place. -/
inductive Fits (g : Grammar) (tokens : List Symbol) : Symbol → List Frame → Nat → Prop
  | root : Fits g tokens g.start [] 0
  | under {s symbols done due frames i j} {p : Production} (rule : p ∈ g.productions)
    (whole : p.symbols = symbols ++ s :: due) (left : g.Spells tokens i symbols done j)
    (rest : Fits g tokens p.name frames i) : Fits g tokens s (⟨p.name, done, due⟩ :: frames) j

def Suits (g : Grammar) (tokens : List Symbol) : Drawing → Nat → Prop
  | .growing s frames, j => g.Fits tokens s frames j
  | .complete t, j => g.Spells tokens 0 [g.start] [t] j

theorem Fits.resume {s : Symbol} {frames : List Frame} {t : Tree} (fits : g.Fits tokens s frames i)
    (spells : g.Spells tokens i [s] [t] j) : g.Suits tokens (.resume frames t) j := by
  induction fits generalizing t with
  | root => exact spells
  | @under s symbols done due frames i k p rule whole left rest ih =>
    have longer := left.append spells
    cases due with
    | nil =>
      rw [← whole] at longer
      exact ih (longer.close rule)
    | cons next due => exact .under rule (by simp [whole]) longer rest

end Grammar

variable {g : Grammar} {t : Table} {tokens : List Symbol}

structure Scene.Reads (g : Grammar) (tokens : List Symbol) (c : Scene) : Prop where
  suits : g.Suits tokens c.drawing c.position
  input_eq : c.input = tokens.drop c.position ++ [Symbol.endMark]
  bound : c.position ≤ tokens.length

theorem Scene.initial_reads (of : t.IsOf g) (tokens : List Symbol) :
    (Scene.initial t tokens).Reads g tokens := by
  refine ⟨?_, rfl, Nat.zero_le _⟩
  simpa [Scene.initial, Grammar.Suits, of.start_eq] using Grammar.Fits.root

theorem next_token {position : Nat} {token : Symbol} {unread : List Symbol}
    (input : token :: unread = tokens.drop position ++ [Symbol.endMark]) :
    (tokens[position]? = some token ∧ unread = tokens.drop (position + 1) ++ [Symbol.endMark]) ∨
      (token = Symbol.endMark ∧ tokens.length ≤ position) := by
  cases left : tokens.drop position with
  | nil =>
    rw [left] at input
    exact Or.inr ⟨(List.cons_eq_cons.mp input).1, List.drop_eq_nil_iff.mp left⟩
  | cons first rest =>
    rw [left] at input
    obtain ⟨rfl, later⟩ := List.cons_eq_cons.mp input
    have there : tokens[position]? = some token := by
      rw [← List.head?_drop, left, List.head?_cons]
    refine Or.inl ⟨there, ?_⟩
    rw [← List.tail_drop, left, List.tail_cons]
    exact later

theorem Scene.Reads.moves (of : t.IsOf g) (known : ∀ s ∈ tokens, s ∈ g.terminals) {c c' : Scene}
    {action : Action} (reads : c.Reads g tokens) (fed : c.Fed) (moves : c.Moves t action c') :
    c'.Reads g tokens := by
  obtain ⟨suits, input, bound⟩ := reads
  cases moves with
  | skip => exact ⟨suits.resume (.empty .nil), input, bound⟩
  | @consume frames token unread position plain =>
    rcases next_token input with ⟨there, later⟩ | ⟨mark, _⟩
    · have terminal := known token (List.mem_of_getElem? there)
      have inside := (List.getElem?_eq_some_iff.mp there).1
      exact ⟨suits.resume (.token terminal there .nil), later, inside⟩
    · exact absurd mark.symm fed.top.1
  | @expand top frames token unread position row p first due _ _ found cell symbols =>
    obtain ⟨rule, rfl, _⟩ := of.cell found cell
    have whole : p.symbols = [] ++ first :: due := symbols
    exact ⟨.under rule whole .nil suits, input, bound⟩

theorem Scene.Reaches.reads (of : t.IsOf g) (known : ∀ s ∈ tokens, s ∈ g.terminals)
    {c : Scene} (reaches : (Scene.initial t tokens).Reaches t c) : c.Reads g tokens ∧ c.Fed := by
  induction reaches with
  | refl => exact ⟨Scene.initial_reads of tokens, Scene.initial_fed of tokens⟩
  | tail _ step ih =>
    obtain ⟨_, moves⟩ := step
    exact ⟨ih.1.moves of known ih.2 moves, ih.2.moves of moves⟩

theorem Table.spells_of_accepted (made : g.table = .ok t) {tree : Tree}
    (accepted : t.parse tokens = .accepted tree) :
    (∀ s ∈ tokens, s ∈ g.terminals) ∧ g.Spells tokens 0 [g.start] [tree] tokens.length := by
  obtain ⟨_, _, _, of⟩ := Grammar.table_isOf made
  by_cases known : ∀ s ∈ tokens, s ∈ t.terminals
  · obtain ⟨c, reaches, ends⟩ := parse_spec made known
    rw [of.terminals_eq] at known
    obtain ⟨⟨suits, input, bound⟩, _⟩ := reaches.reads of known
    rw [accepted] at ends
    cases ends with
    | @accepts _ unread position =>
      rcases next_token input with ⟨there, _⟩ | ⟨_, all⟩
      · have terminal := known _ (List.mem_of_getElem? there)
        exact absurd rfl (Grammar.terminal_ne_endMark terminal)
      · have last : position = tokens.length := Nat.le_antisymm bound all
        exact ⟨known, last ▸ suits⟩
  · obtain ⟨error, rejected⟩ := parse_of_unknown known
    rw [rejected] at accepted
    cases accepted

/-- The trees that are returned are parse trees of the tokens. -/
theorem Table.parse_sound (made : g.table = .ok t) {tree : Tree}
    (accepted : t.parse tokens = .accepted tree) : tree.IsParse g tokens := by
  obtain ⟨_, spells⟩ := spells_of_accepted made accepted
  obtain ⟨word, forest, reads⟩ := spells.forest
  have whole : tokens = word := by simpa using reads
  have single : tree.shape.word = word := by simpa [Tree.shapes, Shape.forestWord] using forest.valid.2.2
  have span : Tree.Contiguous 0 ([] ++ [tree]) tokens.length := spells.contiguous
  obtain ⟨first, last⟩ := span.ends
  refine ⟨by simpa using spells.values, first, last, spells.sound tree (by simp), ?_⟩
  rw [Tree.leaves_eq_word, single, whole]

namespace Sample

theorem textbook_parse_sound : ∃ tree, textbookTable.parse ["a", "b", "c", "b"] = .accepted tree ∧
    tree.IsParse textbookGrammar ["a", "b", "c", "b"] := by
  have accepted : (match textbookTable.parse ["a", "b", "c", "b"] with
      | .accepted _ => true
      | _ => false) = true := by decide +kernel
  cases outcome : textbookTable.parse ["a", "b", "c", "b"] with
  | accepted tree => exact ⟨tree, rfl, Table.parse_sound textbook_table outcome⟩
  | rejected error => simp [outcome] at accepted
  | broken fault => simp [outcome] at accepted

end Sample

end TopDown
