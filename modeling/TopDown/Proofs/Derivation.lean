import Mathlib.Logic.Relation
import TopDown.Grammar

namespace TopDown

namespace Symbol

/-- The symbols that are written, without the marks of the empty string. -/
def written (symbols : List Symbol) : List Symbol := symbols.filter (· ≠ empty)

@[simp] theorem written_nil : written [] = [] := rfl

@[simp] theorem written_empty (symbols : List Symbol) :
    written (empty :: symbols) = written symbols := by
  simp [written]

theorem written_cons {s : Symbol} (other : s ≠ empty) (symbols : List Symbol) :
    written (s :: symbols) = s :: written symbols := by
  simp [written, other]

@[simp] theorem written_append (xs ys : List Symbol) :
    written (xs ++ ys) = written xs ++ written ys := by
  simp [written]

theorem written_cons_eq_append (s : Symbol) (symbols : List Symbol) :
    written (s :: symbols) = written [s] ++ written symbols := by
  rw [← written_append, List.singleton_append]

theorem written_eq_self {symbols : List Symbol} (plain : empty ∉ symbols) :
    written symbols = symbols := by
  rw [written, List.filter_eq_self]
  intro s member
  have other : s ≠ empty := fun same => plain (same ▸ member)
  simpa using other

theorem ne_of_isReserved {s mark : Symbol} (free : isReserved s = false)
    (reserved : isReserved mark = true) : s ≠ mark := by
  intro same
  rw [same, reserved] at free
  cases free

theorem empty_not_mem_written (symbols : List Symbol) : empty ∉ written symbols := by
  simp [written]

end Symbol

/-- What a production writes in place of its name. -/
def Production.body (p : Production) : List Symbol := Symbol.written p.symbols

theorem append_eq_append_cons {xs ys left right : List Symbol} {s : Symbol}
    (same : xs ++ ys = left ++ s :: right) :
    (∃ rest, xs = left ++ s :: rest ∧ right = rest ++ ys) ∨
      ∃ rest, left = xs ++ rest ∧ ys = rest ++ s :: right := by
  rcases List.append_eq_append_iff.mp same with ⟨rest, first, second⟩ | ⟨rest, first, second⟩
  · exact Or.inr ⟨rest, first, second⟩
  · cases rest with
    | nil => exact Or.inr ⟨[], by simpa using first.symm, by simpa using second.symm⟩
    | cons t rest =>
      obtain ⟨rfl, rfl⟩ := List.cons_eq_cons.mp second
      exact Or.inl ⟨rest, first, rfl⟩

namespace Grammar

inductive Rewrites (g : Grammar) : List Symbol → List Symbol → Prop
  | replace {p : Production} (member : p ∈ g.productions) (left right : List Symbol) :
    Rewrites g (left ++ p.name :: right) (left ++ p.body ++ right)

/-- Replaces the leftmost name: only terminals stand before it. -/
inductive LeftRewrites (g : Grammar) : List Symbol → List Symbol → Prop
  | replace {p : Production} (member : p ∈ g.productions) {left : List Symbol}
    (read : ∀ s ∈ left, s ∈ g.terminals) (right : List Symbol) :
    LeftRewrites g (left ++ p.name :: right) (left ++ p.body ++ right)

def Derives (g : Grammar) : List Symbol → List Symbol → Prop :=
  Relation.ReflTransGen g.Rewrites

def LeftDerives (g : Grammar) : List Symbol → List Symbol → Prop :=
  Relation.ReflTransGen g.LeftRewrites

def IsWord (g : Grammar) (word : List Symbol) : Prop := ∀ s ∈ word, s ∈ g.terminals

def Sentence (g : Grammar) (word : List Symbol) : Prop :=
  g.IsWord word ∧ g.Derives [g.start] word

def Reachable (g : Grammar) (name : Symbol) : Prop :=
  ∃ left right, g.Derives [g.start] (left ++ name :: right)

def Productive (g : Grammar) (name : Symbol) : Prop :=
  ∃ word, g.IsWord word ∧ g.Derives [name] word

variable {g : Grammar}

theorem terminal_ne_empty {s : Symbol} (member : s ∈ g.terminals) : s ≠ Symbol.empty :=
  Symbol.ne_of_isReserved (g.wellFormed.terminal_unreserved s member) Symbol.isReserved_empty

theorem terminal_ne_endMark {s : Symbol} (member : s ∈ g.terminals) : s ≠ Symbol.endMark :=
  Symbol.ne_of_isReserved (g.wellFormed.terminal_unreserved s member) Symbol.isReserved_endMark

theorem nonterminal_ne_empty {s : Symbol} (member : s ∈ g.nonterminals) : s ≠ Symbol.empty :=
  Symbol.ne_of_isReserved (g.wellFormed.nonterminal_unreserved s member) Symbol.isReserved_empty

theorem nonterminal_ne_endMark {s : Symbol} (member : s ∈ g.nonterminals) :
    s ≠ Symbol.endMark :=
  Symbol.ne_of_isReserved (g.wellFormed.nonterminal_unreserved s member) Symbol.isReserved_endMark

theorem ne_empty_of_kind {s : Symbol} (kind : s ∈ g.terminals ∨ s = Symbol.endMark) :
    s ≠ Symbol.empty := by
  rcases kind with terminal | rfl
  · exact terminal_ne_empty terminal
  · exact Symbol.empty_ne_endMark.symm

theorem terminal_of_declared {s : Symbol} (kind : s ∈ g.terminals ∨ s = Symbol.endMark)
    (declared : s ∈ g.terminals ∨ s ∈ g.nonterminals) : s ∈ g.terminals := by
  rcases kind with terminal | mark
  · exact terminal
  · exact declared.resolve_right fun nonterminal => nonterminal_ne_endMark nonterminal mark

theorem terminal_ne_name {s : Symbol} {p : Production} (terminal : s ∈ g.terminals)
    (member : p ∈ g.productions) : s ≠ p.name := by
  intro same
  subst same
  exact g.wellFormed.disjoint _ terminal (g.wellFormed.name_declared p member)

theorem name_ne_empty {p : Production} (member : p ∈ g.productions) : p.name ≠ Symbol.empty :=
  nonterminal_ne_empty (g.wellFormed.name_declared p member)

theorem start_mem (g : Grammar) : g.start ∈ g.nonterminals := by
  obtain ⟨p, member, name⟩ := g.wellFormed.start_defined
  exact name ▸ g.wellFormed.name_declared p member

theorem symbols_cases {p : Production} (member : p ∈ g.productions) :
    (p.symbols = [Symbol.empty] ∧ p.body = []) ∨
      (Symbol.empty ∉ p.symbols ∧ p.body = p.symbols) := by
  by_cases mark : Symbol.empty ∈ p.symbols
  · have alone := g.wellFormed.unmixed p member mark
    exact Or.inl ⟨alone, by simp [Production.body, alone]⟩
  · exact Or.inr ⟨mark, Symbol.written_eq_self mark⟩

theorem mem_body {p : Production} (member : p ∈ g.productions) {s : Symbol}
    (inside : s ∈ p.body) : s ∈ g.terminals ∨ s ∈ g.nonterminals := by
  have other : s ≠ Symbol.empty := by
    intro same
    subst same
    exact Symbol.empty_not_mem_written _ inside
  have written : s ∈ p.symbols := (List.mem_filter.mp inside).1
  rcases g.wellFormed.symbol_declared p member s written with mark | declared
  · exact absurd mark other
  · exact declared

theorem IsWord.append {u v : List Symbol} (hu : g.IsWord u) (hv : g.IsWord v) :
    g.IsWord (u ++ v) := by
  intro s member
  rcases List.mem_append.mp member with member | member
  · exact hu s member
  · exact hv s member

theorem IsWord.of_append {u v : List Symbol} (word : g.IsWord (u ++ v)) :
    g.IsWord u ∧ g.IsWord v :=
  ⟨fun s member => word s (by simp [member]), fun s member => word s (by simp [member])⟩

theorem IsWord.take {u : List Symbol} (word : g.IsWord u) (n : Nat) : g.IsWord (u.take n) :=
  fun s member => word s (List.mem_of_mem_take member)

theorem IsWord.cons {s : Symbol} {u : List Symbol} (head : s ∈ g.terminals) (tail : g.IsWord u) :
    g.IsWord (s :: u) := by
  intro t member
  rcases List.mem_cons.mp member with rfl | member
  · exact head
  · exact tail t member

theorem isWord_nil : g.IsWord [] := by
  simp [IsWord]

theorem Rewrites.context {u v : List Symbol} (step : g.Rewrites u v) (left right : List Symbol) :
    g.Rewrites (left ++ u ++ right) (left ++ v ++ right) := by
  obtain ⟨member, before, after⟩ := step
  simpa using Rewrites.replace member (left ++ before) (after ++ right)

theorem Derives.refl (u : List Symbol) : g.Derives u u := Relation.ReflTransGen.refl

theorem Derives.trans {u v w : List Symbol} (first : g.Derives u v) (second : g.Derives v w) :
    g.Derives u w :=
  Relation.ReflTransGen.trans first second

theorem Derives.context {u v : List Symbol} (h : g.Derives u v) (left right : List Symbol) :
    g.Derives (left ++ u ++ right) (left ++ v ++ right) := by
  induction h with
  | refl => exact Derives.refl _
  | tail _ step ih => exact Relation.ReflTransGen.tail ih (step.context left right)

theorem Derives.append {u u' v v' : List Symbol} (hu : g.Derives u u') (hv : g.Derives v v') :
    g.Derives (u ++ v) (u' ++ v') := by
  have first : g.Derives (u ++ v) (u' ++ v) := by simpa using hu.context [] v
  have second : g.Derives (u' ++ v) (u' ++ v') := by simpa using hv.context u' []
  exact first.trans second

theorem Derives.of_production {p : Production} (member : p ∈ g.productions) :
    g.Derives [p.name] p.body := by
  have step := Rewrites.replace member [] []
  simp only [List.nil_append, List.append_nil] at step
  exact Relation.ReflTransGen.single step

theorem Derives.replace {p : Production} (member : p ∈ g.productions) (left right : List Symbol) :
    g.Derives (left ++ p.name :: right) (left ++ p.body ++ right) :=
  Relation.ReflTransGen.single (Rewrites.replace member left right)

theorem Derives.split {u v w : List Symbol} (h : g.Derives (u ++ v) w) :
    ∃ u' v', w = u' ++ v' ∧ g.Derives u u' ∧ g.Derives v v' := by
  induction h with
  | refl => exact ⟨u, v, rfl, Derives.refl u, Derives.refl v⟩
  | tail _ step ih =>
    obtain ⟨u', v', rfl, hu, hv⟩ := ih
    generalize whole : u' ++ v' = form at step
    obtain ⟨member, left, right⟩ := step
    rcases append_eq_append_cons whole with ⟨rest, rfl, rfl⟩ | ⟨rest, rfl, rfl⟩
    · exact ⟨_, v', by simp, hu.trans (Derives.replace member left rest), hv⟩
    · exact ⟨u', _, by simp, hu, hv.trans (Derives.replace member rest right)⟩

theorem Derives.nil_of_append {u v : List Symbol} (h : g.Derives (u ++ v) []) :
    g.Derives u [] ∧ g.Derives v [] := by
  obtain ⟨_, _, whole, first, second⟩ := h.split
  obtain ⟨rfl, rfl⟩ := List.nil_eq_append_iff.mp whole
  exact ⟨first, second⟩

theorem Derives.eq_of_isWord {w u : List Symbol} (word : g.IsWord w) (h : g.Derives w u) :
    u = w := by
  induction h with
  | refl => rfl
  | tail _ step ih =>
    subst ih
    obtain ⟨member, left, right⟩ := step
    exact absurd rfl (terminal_ne_name (word _ (by simp)) member)

theorem Derives.eq_nil {u : List Symbol} (h : g.Derives [] u) : u = [] :=
  Derives.eq_of_isWord isWord_nil h

theorem nonterminal_of_derives_nil {s : Symbol} (declared : s ∈ g.terminals ∨ s ∈ g.nonterminals)
    (vanish : g.Derives [s] []) : s ∈ g.nonterminals := by
  rcases declared with terminal | nonterminal
  · cases vanish.eq_of_isWord (isWord_nil.cons terminal)
  · exact nonterminal

theorem LeftRewrites.derives {u v : List Symbol} (step : g.LeftRewrites u v) : g.Derives u v := by
  obtain ⟨member, _, right⟩ := step
  exact Derives.replace member _ right

theorem LeftDerives.derives {u v : List Symbol} (h : g.LeftDerives u v) : g.Derives u v := by
  induction h with
  | refl => exact Derives.refl _
  | tail _ step ih => exact ih.trans step.derives

theorem LeftDerives.refl (u : List Symbol) : g.LeftDerives u u := Relation.ReflTransGen.refl

theorem LeftDerives.trans {u v w : List Symbol} (first : g.LeftDerives u v)
    (second : g.LeftDerives v w) : g.LeftDerives u w :=
  Relation.ReflTransGen.trans first second

theorem LeftDerives.replace {p : Production} (member : p ∈ g.productions) {left : List Symbol}
    (read : g.IsWord left) (right : List Symbol) :
    g.LeftDerives (left ++ p.name :: right) (left ++ p.body ++ right) :=
  Relation.ReflTransGen.single (LeftRewrites.replace member read right)

theorem LeftDerives.after {u v left : List Symbol} (h : g.LeftDerives u v)
    (read : g.IsWord left) : g.LeftDerives (left ++ u) (left ++ v) := by
  induction h with
  | refl => exact LeftDerives.refl _
  | tail _ step ih =>
    refine ih.trans ?_
    obtain ⟨member, before, right⟩ := step
    simpa using LeftDerives.replace member (read.append before) right

end Grammar

end TopDown
