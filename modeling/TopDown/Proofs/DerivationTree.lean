import TopDown.Proofs.Derivation
import TopDown.Tree

namespace TopDown

/-- A tree without the spans of its nodes. -/
inductive Shape where
  | node (label : Symbol) (children : List Shape)

namespace Shape

def label : Shape → Symbol
  | node label _ => label

def leaf (label : Symbol) : Shape := node label []

mutual

def word : Shape → List Symbol
  | node label [] => if label = Symbol.empty then [] else [label]
  | node _ (first :: rest) => word first ++ forestWord rest

def forestWord : List Shape → List Symbol
  | [] => []
  | t :: rest => word t ++ forestWord rest

end

theorem word_inner (label : Symbol) {children : List Shape} (inner : children ≠ []) :
    word (node label children) = forestWord children := by
  cases children with
  | nil => exact absurd rfl inner
  | cons first rest => rw [word, forestWord]

theorem word_leaf_empty : word (leaf Symbol.empty) = [] := by
  simp [leaf, word]

theorem word_leaf {s : Symbol} (other : s ≠ Symbol.empty) : word (leaf s) = [s] := by
  simp [leaf, word, other]

theorem forestWord_append (front back : List Shape) :
    forestWord (front ++ back) = forestWord front ++ forestWord back := by
  induction front with
  | nil => rw [List.nil_append, forestWord, List.nil_append]
  | cons t front ih => rw [List.cons_append, forestWord, forestWord, ih, List.append_assoc]

end Shape

mutual

def Tree.shape : Tree → Shape
  | .node value _ _ children => .node value (Tree.shapes children)

def Tree.shapes : List Tree → List Shape
  | [] => []
  | t :: rest => t.shape :: Tree.shapes rest

end

open Shape

namespace Grammar

/-- A tree in which every inner node is labelled with a name, its children with the symbols of a
production of that name, and every leaf with a terminal or with `ε`. -/
inductive IsDerivation (g : Grammar) : Shape → Prop
  | empty : IsDerivation g (leaf Symbol.empty)
  | terminal {s : Symbol} (member : s ∈ g.terminals) : IsDerivation g (leaf s)
  | inner {p : Production} (member : p ∈ g.productions) {children : List Shape}
    (labels : children.map label = p.symbols) (below : ∀ c ∈ children, IsDerivation g c) :
    IsDerivation g (node p.name children)

/-- Derivation trees of the symbols of a list, and the word that they read together. -/
inductive Forest (g : Grammar) : List Symbol → List Shape → List Symbol → Prop
  | nil : Forest g [] [] []
  | empty {symbols shapes word} (rest : Forest g symbols shapes word) :
    Forest g (Symbol.empty :: symbols) (leaf Symbol.empty :: shapes) word
  | terminal {symbols shapes word s} (member : s ∈ g.terminals)
    (rest : Forest g symbols shapes word) :
    Forest g (s :: symbols) (leaf s :: shapes) (s :: word)
  | inner {symbols shapes u v children} {p : Production} (member : p ∈ g.productions)
    (below : Forest g p.symbols children u) (rest : Forest g symbols shapes v) :
    Forest g (p.name :: symbols) (node p.name children :: shapes) (u ++ v)

variable {g : Grammar}

theorem word_node {p : Production} (member : p ∈ g.productions) {children : List Shape}
    (labels : children.map label = p.symbols) :
    word (node p.name children) = forestWord children := by
  apply word_inner
  intro none
  subst none
  exact g.wellFormed.symbols_ne_nil p member labels.symm

namespace Forest

theorem isWord {symbols shapes word} (h : g.Forest symbols shapes word) : g.IsWord word := by
  induction h with
  | nil => exact isWord_nil
  | empty _ ih => exact ih
  | terminal member _ ih => exact ih.cons member
  | inner _ _ _ below rest => exact below.append rest

theorem append {α β shapes₁ shapes₂ u v} (first : g.Forest α shapes₁ u)
    (second : g.Forest β shapes₂ v) : g.Forest (α ++ β) (shapes₁ ++ shapes₂) (u ++ v) := by
  induction first with
  | nil => exact second
  | empty _ ih => exact .empty ih
  | terminal member _ ih => exact .terminal member ih
  | inner member below _ _ ih =>
    rw [List.append_assoc]
    exact .inner member below ih

theorem split {α β shapes word} (h : g.Forest (α ++ β) shapes word) :
    ∃ shapes₁ shapes₂ u v, shapes = shapes₁ ++ shapes₂ ∧ word = u ++ v ∧
      g.Forest α shapes₁ u ∧ g.Forest β shapes₂ v := by
  induction α generalizing shapes word with
  | nil => exact ⟨[], shapes, [], word, rfl, rfl, .nil, h⟩
  | cons s α ih =>
    cases h with
    | empty rest =>
      obtain ⟨_, _, _, _, rfl, rfl, first, second⟩ := ih rest
      exact ⟨_, _, _, _, rfl, rfl, .empty first, second⟩
    | terminal member rest =>
      obtain ⟨_, _, _, _, rfl, rfl, first, second⟩ := ih rest
      exact ⟨_, _, _, _, rfl, rfl, .terminal member first, second⟩
    | inner member below rest =>
      obtain ⟨_, _, _, _, rfl, rfl, first, second⟩ := ih rest
      exact ⟨_, _, _, _, rfl, (List.append_assoc _ _ _).symm, .inner member below first, second⟩

theorem leftDerives {symbols shapes word} (h : g.Forest symbols shapes word)
    (right : List Symbol) : g.LeftDerives (Symbol.written symbols ++ right) (word ++ right) := by
  induction h generalizing right with
  | nil => exact LeftDerives.refl _
  | empty _ ih => simpa using ih right
  | terminal member _ ih =>
    rw [Symbol.written_cons (terminal_ne_empty member)]
    exact (ih right).after (isWord_nil.cons member)
  | @inner symbols _ _ _ _ p member below _ belowIh restIh =>
    rw [Symbol.written_cons (name_ne_empty member)]
    have expand : g.LeftDerives (p.name :: (Symbol.written symbols ++ right))
        (p.body ++ (Symbol.written symbols ++ right)) := by
      simpa using LeftDerives.replace member isWord_nil (Symbol.written symbols ++ right)
    have first := belowIh (Symbol.written symbols ++ right)
    have second := (restIh right).after below.isWord
    simpa using (expand.trans first).trans second

theorem derives {symbols shapes word} (h : g.Forest symbols shapes word) :
    g.Derives (Symbol.written symbols) word := by
  simpa using (h.leftDerives []).derives

theorem of_written {symbols : List Symbol} {shapes word}
    (h : g.Forest (Symbol.written symbols) shapes word) :
    ∃ shapes, g.Forest symbols shapes word := by
  induction symbols generalizing shapes word with
  | nil => exact ⟨shapes, h⟩
  | cons s symbols ih =>
    by_cases mark : s = Symbol.empty
    · subst mark
      rw [Symbol.written_empty] at h
      obtain ⟨_, rest⟩ := ih h
      exact ⟨_, .empty rest⟩
    · rw [Symbol.written_cons mark] at h
      cases h with
      | empty => exact absurd rfl mark
      | terminal member rest =>
        obtain ⟨_, rest⟩ := ih rest
        exact ⟨_, .terminal member rest⟩
      | inner member below rest =>
        obtain ⟨_, rest⟩ := ih rest
        exact ⟨_, .inner member below rest⟩

theorem of_isWord {word : List Symbol} (terminals : g.IsWord word) :
    ∃ shapes, g.Forest word shapes word := by
  induction word with
  | nil => exact ⟨_, .nil⟩
  | cons s word ih =>
    obtain ⟨_, rest⟩ := ih fun t member => terminals t (by simp [member])
    exact ⟨_, .terminal (terminals s (by simp)) rest⟩

theorem of_derives {form word : List Symbol} (terminals : g.IsWord word)
    (h : g.Derives form word) : ∃ shapes, g.Forest form shapes word := by
  induction h using Relation.ReflTransGen.head_induction_on with
  | refl => exact of_isWord terminals
  | head step _ ih =>
    obtain ⟨_, whole⟩ := ih
    obtain ⟨member, left, right⟩ := step
    obtain ⟨_, _, _, _, rfl, rfl, front, after⟩ := whole.split
    obtain ⟨_, _, _, _, rfl, rfl, before, middle⟩ := front.split
    obtain ⟨_, below⟩ := of_written middle
    exact ⟨_, by simpa using before.append (.inner member below after)⟩

theorem valid {symbols shapes word} (h : g.Forest symbols shapes word) :
    shapes.map label = symbols ∧ (∀ t ∈ shapes, g.IsDerivation t) ∧ forestWord shapes = word := by
  induction h with
  | nil => exact ⟨rfl, by simp, by simp [forestWord]⟩
  | empty _ ih =>
    obtain ⟨labels, trees, reads⟩ := ih
    refine ⟨by simp [leaf, label, labels], ?_, by rw [forestWord, word_leaf_empty, reads]; rfl⟩
    intro t member
    rcases List.mem_cons.mp member with rfl | member
    · exact .empty
    · exact trees t member
  | terminal terminal _ ih =>
    obtain ⟨labels, trees, reads⟩ := ih
    refine ⟨by simp [leaf, label, labels], ?_, ?_⟩
    · intro t member
      rcases List.mem_cons.mp member with rfl | member
      · exact .terminal terminal
      · exact trees t member
    · rw [forestWord, word_leaf (terminal_ne_empty terminal), reads]
      rfl
  | @inner _ _ _ _ children p rule _ _ belowIh restIh =>
    obtain ⟨labels, trees, reads⟩ := restIh
    obtain ⟨belowLabels, belowTrees, belowReads⟩ := belowIh
    refine ⟨by simp [label, labels], ?_, ?_⟩
    · intro t member
      rcases List.mem_cons.mp member with rfl | member
      · exact .inner rule belowLabels belowTrees
      · exact trees t member
    · rw [forestWord, word_node rule belowLabels, belowReads, reads]

theorem exists_single {s : Symbol} {word : List Symbol} (terminals : g.IsWord word)
    (h : g.Derives [s] word) : ∃ shape, g.Forest [s] [shape] word := by
  obtain ⟨_, forest⟩ := of_derives terminals h
  obtain ⟨shape, rfl, _⟩ := List.map_eq_singleton_iff.mp forest.valid.1
  exact ⟨shape, forest⟩

end Forest

theorem forest_of_singles {shapes : List Shape}
    (single : ∀ t ∈ shapes, g.Forest [t.label] [t] t.word) :
    g.Forest (shapes.map label) shapes (forestWord shapes) := by
  induction shapes with
  | nil => exact .nil
  | cons t rest ih =>
    have tail := ih fun u member => single u (by simp [member])
    exact (single t (by simp)).append tail

theorem IsDerivation.forest {t : Shape} (h : g.IsDerivation t) :
    g.Forest [t.label] [t] t.word := by
  induction h with
  | empty =>
    rw [word_leaf_empty]
    exact .empty .nil
  | terminal member =>
    rw [word_leaf (terminal_ne_empty member)]
    exact .terminal member .nil
  | @inner p member children labels _ ih =>
    have below := forest_of_singles ih
    rw [labels] at below
    rw [word_node member labels]
    simpa [label] using Forest.inner member below Forest.nil

end Grammar

end TopDown
