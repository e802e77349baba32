import TopDown.Proofs.LL1
import TopDown.Proofs.Parse.Soundness

namespace TopDown

theorem exists_unread (word : List Symbol) :
    ∃ unread, word ++ [Symbol.endMark] = firstToken word :: unread := by
  cases word with
  | nil => exact ⟨[], rfl⟩
  | cons s rest => exact ⟨rest ++ [Symbol.endMark], rfl⟩

theorem Grammar.IsWord.firstToken {g : Grammar} {word : List Symbol} (h : g.IsWord word) :
    TopDown.firstToken word ∈ g.terminals ∨ TopDown.firstToken word = Symbol.endMark := by
  cases word with
  | nil => exact Or.inr rfl
  | cons s rest => exact Or.inl (h s (by simp))

theorem Scene.Moves.of_predicts {g : Grammar} {t : Table} (of : t.IsOf g) {p : Production}
    (rule : p ∈ g.productions) {word : List Symbol} (isWord : g.IsWord word)
    (selects : g.Predicts p (firstToken word)) (frames : List Frame) (position : Nat) :
    ∃ first due, p.symbols = first :: due ∧
      Scene.Moves t ⟨.growing p.name frames, word ++ [Symbol.endMark], position⟩ (.expand p)
        ⟨.growing first (⟨p.name, [], due⟩ :: frames), word ++ [Symbol.endMark], position⟩ := by
  have name := g.wellFormed.name_declared p rule
  have plain := Grammar.name_ne_empty rule
  have other : p.name ≠ firstToken word := by
    rcases isWord.firstToken with terminal | mark
    · exact (Grammar.terminal_ne_name terminal rule).symm
    · exact mark ▸ Grammar.nonterminal_ne_endMark name
  obtain ⟨row, found, cells⟩ := of.row p.name name
  have cell := (cells (firstToken word) p).mpr ⟨rule, rfl, selects⟩
  obtain ⟨unread, input⟩ := exists_unread word
  obtain ⟨first, due, symbols⟩ := List.exists_cons_of_ne_nil (g.wellFormed.symbols_ne_nil p rule)
  rw [input]
  exact ⟨first, due, symbols, .expand plain other found cell symbols⟩

namespace Grammar

variable {g : Grammar} {t : Table} {s : Symbol} {symbols u v after : List Symbol}
  {frames : List Frame} {shape : Shape} {shapes : List Shape}

/-- The symbols, and after them what the frames wait for, stand at the end of a form of the start
symbol, and the frames wait for what derives the rest of the input. -/
structure Awaits (g : Grammar) (symbols : List Symbol) (frames : List Frame)
    (after : List Symbol) : Prop where
  reached : ∃ left, g.Derives [g.start]
    (left ++ (Symbol.written symbols ++ Symbol.written (Drawing.waiting frames)))
  later : g.Derives (Symbol.written (Drawing.waiting frames)) after
  word : g.IsWord after

/-- The machine draws a tree for the symbol that is next, and reads its word. -/
def Drawn (g : Grammar) (t : Table) (s : Symbol) (shape : Shape) (word : List Symbol) : Prop :=
  ∀ frames after position, g.Awaits [s] frames after →
    ∃ tree : Tree, tree.shape = shape ∧ Scene.Reaches t
      ⟨.growing s frames, word ++ after ++ [Symbol.endMark], position⟩
      ⟨.resume frames tree, after ++ [Symbol.endMark], position + word.length⟩

def DrawnEach (g : Grammar) (t : Table) (symbols : List Symbol) (shapes : List Shape)
    (word : List Symbol) : Prop :=
  ∀ s due, symbols = s :: due → ∀ value done frames after position, g.Awaits symbols frames after →
    ∃ trees last, Tree.shapes (trees ++ [last]) = shapes ∧ Scene.Reaches t
      ⟨.growing s (⟨value, done, due⟩ :: frames), word ++ after ++ [Symbol.endMark], position⟩
      ⟨.resume frames (.inner value (done ++ trees) last), after ++ [Symbol.endMark],
        position + word.length⟩

theorem Awaits.head {value : Symbol} {done : List Tree} (awaits : g.Awaits (s :: symbols) frames after)
    (rest : g.Forest symbols shapes v) :
    g.Awaits [s] (⟨value, done, symbols⟩ :: frames) (v ++ after) := by
  obtain ⟨⟨left, reached⟩, later, word⟩ := awaits
  refine ⟨⟨left, ?_⟩, ?_, rest.isWord.append word⟩
  · simpa [Symbol.written_cons_eq_append s symbols] using reached
  · simpa using rest.derives.append later

theorem Awaits.tail (awaits : g.Awaits (s :: symbols) frames after)
    (derives : g.Derives (Symbol.written [s]) u) : g.Awaits symbols frames after := by
  obtain ⟨⟨left, reached⟩, later, word⟩ := awaits
  refine ⟨⟨left ++ u, ?_⟩, later, word⟩
  have front := (Derives.refl left).append (derives.append (Derives.refl
    (Symbol.written symbols ++ Symbol.written (Drawing.waiting frames))))
  rw [Symbol.written_cons_eq_append, List.append_assoc] at reached
  simpa using reached.trans front

theorem DrawnEach.cons (head : g.Drawn t s shape u) (derives : g.Derives (Symbol.written [s]) u)
    (rest : g.Forest symbols shapes v) (tail : g.DrawnEach t symbols shapes v) :
    g.DrawnEach t (s :: symbols) (shape :: shapes) (u ++ v) := by
  intro r due same value done frames after position awaits
  obtain ⟨rfl, rfl⟩ := List.cons_eq_cons.mp same
  obtain ⟨tree, shaped, first⟩ :=
    head (⟨value, done, symbols⟩ :: frames) (v ++ after) position (awaits.head rest)
  cases symbols with
  | nil =>
    cases rest
    refine ⟨[], tree, by simp [Tree.shapes, shaped], ?_⟩
    simpa [Drawing.resume] using first
  | cons next due =>
    obtain ⟨trees, last, shaped', second⟩ :=
      tail next due rfl value (done ++ [tree]) frames after (position + u.length)
        (awaits.tail derives)
    refine ⟨tree :: trees, last, by simp [Tree.shapes, shaped, shaped'], ?_⟩
    have onward := first.trans (by simpa [Drawing.resume] using second)
    simpa [Nat.add_assoc] using onward

theorem drawn_empty (t : Table) : g.Drawn t Symbol.empty (.leaf Symbol.empty) [] := by
  intro frames after position _
  obtain ⟨unread, input⟩ := exists_unread after
  refine ⟨.node Symbol.empty position position [], rfl, ?_⟩
  rw [List.nil_append, input]
  exact Relation.ReflTransGen.single ⟨_, .skip⟩

theorem drawn_terminal (t : Table) (terminal : s ∈ g.terminals) : g.Drawn t s (.leaf s) [s] := by
  intro frames after position _
  refine ⟨.node s position (position + 1) [], rfl, ?_⟩
  exact Relation.ReflTransGen.single ⟨_, .consume (terminal_ne_empty terminal)⟩

theorem drawn_inner (of : t.IsOf g) {p : Production} (rule : p ∈ g.productions)
    {children : List Shape} (below : g.Forest p.symbols children u)
    (each : g.DrawnEach t p.symbols children u) : g.Drawn t p.name (.node p.name children) u := by
  intro frames after position awaits
  obtain ⟨⟨left, reached⟩, later, word⟩ := awaits
  have whole := below.isWord.append word
  rw [Symbol.written_cons (name_ne_empty rule), Symbol.written_nil, List.singleton_append] at reached
  have selects := predicts_firstToken whole reached (below.derives.append later)
  obtain ⟨first, due, symbols, moves⟩ := Scene.Moves.of_predicts of rule whole selects frames position
  have awaits : g.Awaits p.symbols frames after := by
    refine ⟨⟨left, ?_⟩, later, word⟩
    have expand := Derives.replace rule left (Symbol.written (Drawing.waiting frames))
    simpa [Production.body] using reached.trans expand
  obtain ⟨trees, last, shaped, reaches⟩ :=
    each first due symbols p.name [] frames after position awaits
  refine ⟨.inner p.name trees last, by rw [Tree.inner, Tree.shape, shaped], ?_⟩
  exact Relation.ReflTransGen.head ⟨.expand p, moves⟩ reaches

theorem Forest.drawnEach (of : t.IsOf g) (forest : g.Forest symbols shapes u) :
    g.DrawnEach t symbols shapes u := by
  -- An inner node needs the hypothesis for its own children and for what stands to its right.
  induction forest with
  | nil =>
    intro s due same
    cases same
  | empty rest ih => exact DrawnEach.cons (drawn_empty t) (by simpa using Derives.refl []) rest ih
  | @terminal _ _ _ s member rest ih =>
    have derives : g.Derives (Symbol.written [s]) [s] := by
      rw [Symbol.written_cons (terminal_ne_empty member)]
      exact Derives.refl [s]
    exact DrawnEach.cons (drawn_terminal t member) derives rest ih
  | @inner _ _ _ _ _ p member below rest belowIh ih =>
    have derives := (Forest.inner member below .nil).derives
    rw [List.append_nil] at derives
    exact DrawnEach.cons (drawn_inner of member below belowIh) derives rest ih

end Grammar

namespace Table

variable {g : Grammar} {t : Table}

theorem parse_of_forest (made : g.table = .ok t) {shape : Shape} {word : List Symbol}
    (forest : g.Forest [g.start] [shape] word) :
    ∃ tree, t.parse word = .accepted tree ∧ tree.shape = shape := by
  obtain ⟨_, _, _, of⟩ := Grammar.table_isOf made
  have known : ∀ s ∈ word, s ∈ t.terminals := by
    rw [of.terminals_eq]
    exact forest.isWord
  have plain := Grammar.nonterminal_ne_empty g.start_mem
  have awaits : g.Awaits [g.start] [] [] := by
    refine ⟨⟨[], ?_⟩, Grammar.Derives.refl [], Grammar.isWord_nil⟩
    rw [Symbol.written_cons plain]
    exact Grammar.Derives.refl [g.start]
  have drawn : g.Drawn t g.start shape word := by
    generalize root : g.start = s at forest
    cases forest with
    | empty => exact absurd root plain
    | terminal member => exact absurd g.start_mem (g.wellFormed.disjoint _ (root ▸ member))
    | inner member below rest =>
      cases rest
      rw [List.append_nil]
      exact Grammar.drawn_inner of member below (below.drawnEach of)
  obtain ⟨tree, shaped, reaches⟩ := drawn [] [] 0 awaits
  obtain ⟨c, reaches', ends⟩ := parse_spec made known
  have start : (Scene.initial t word).Reaches t ⟨.complete tree, [Symbol.endMark], word.length⟩ := by
    simpa [Scene.initial, of.start_eq, Drawing.resume] using reaches
  obtain ⟨_, same⟩ := start.unique .accepts reaches' ends
  exact ⟨tree, same.symm, shaped⟩

/-- Each derivation tree of the start symbol is the tree that parsing its word returns, so every
sentence is accepted, and no list of tokens has two derivation trees. -/
theorem parse_complete (made : g.table = .ok t) :
    (∀ d, g.IsDerivation d → d.label = g.start →
      ∃ tree, t.parse d.word = .accepted tree ∧ tree.shape = d) ∧
      (∀ word, g.Sentence word → ∃ tree, t.parse word = .accepted tree) ∧
        ∀ d e, g.IsDerivation d → g.IsDerivation e → d.label = g.start → e.label = g.start →
          d.word = e.word → d = e := by
  have found : ∀ d, g.IsDerivation d → d.label = g.start →
      ∃ tree, t.parse d.word = .accepted tree ∧ tree.shape = d :=
    fun d derivation root => parse_of_forest made (root ▸ derivation.forest)
  refine ⟨found, ?_, ?_⟩
  · intro word sentence
    obtain ⟨shapes, forest⟩ := Grammar.Forest.of_derives sentence.1 sentence.2
    obtain ⟨d, single⟩ : ∃ d, shapes = [d] := by
      have labels := forest.valid.1
      exact List.length_eq_one_iff.mp (by simpa using congrArg List.length labels)
    subst single
    obtain ⟨tree, accepted, _⟩ := parse_of_forest made forest
    exact ⟨tree, accepted⟩
  · intro d e derivationD derivationE rootD rootE same
    obtain ⟨tree, accepted, shaped⟩ := found d derivationD rootD
    obtain ⟨tree', accepted', shaped'⟩ := found e derivationE rootE
    rw [← same, accepted] at accepted'
    cases accepted'
    exact shaped.symm.trans shaped'

end Table

namespace Sample

theorem textbook_parse_complete :
    (∀ d, textbookGrammar.IsDerivation d → d.label = "S" →
      ∃ tree, textbookTable.parse d.word = .accepted tree ∧ tree.shape = d) ∧
      (∀ word, textbookGrammar.Sentence word → ∃ tree, textbookTable.parse word = .accepted tree) ∧
        ∀ d e, textbookGrammar.IsDerivation d → textbookGrammar.IsDerivation e → d.label = "S" →
          e.label = "S" → d.word = e.word → d = e :=
  Table.parse_complete textbook_table

end Sample

end TopDown
