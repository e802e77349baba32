import TopDown.Proofs.LL1

namespace TopDown

namespace Family

/-- The loop of sweeps, without a bound: it ends with the first sweep that changes nothing. -/
inductive Settles (sweep : Sweep) : Family → Settled → Prop
  | done {F G} (swept : sweep F = (G, .ok false)) : Settles sweep F ⟨G, 1⟩
  | again {F G settled} (swept : sweep F = (G, .ok true)) (rest : Settles sweep G settled) :
    Settles sweep F ⟨settled.family, settled.sweeps + 1⟩

theorem settles_of_settle {sweep : Sweep} {bound : Nat} {F : Family} {settled : Settled}
    (closed : settle sweep bound F = .ok settled) : Settles sweep F settled := by
  induction bound generalizing F settled with
  | zero => cases closed
  | succ bound ih =>
    unfold settle at closed
    split at closed
    · cases closed
    · rename_i G swept
      cases closed
      exact .done swept
    · rename_i G swept
      cases later : settle sweep bound G with
      | error e =>
        rw [later] at closed
        cases closed
      | ok last =>
        rw [later] at closed
        cases closed
        exact .again swept (ih later)

end Family

namespace Grammar

variable {g : Grammar}

/-- The symbols of a grammar, with both marks. -/
def Knows (g : Grammar) (s : Symbol) : Prop := (g.kind? s).isSome = true

theorem knows_iff {s : Symbol} :
    g.Knows s ↔ s = Symbol.empty ∨ s ∈ g.terminals ∨ s ∈ g.nonterminals ∨ s = Symbol.endMark := by
  unfold Knows kind?
  by_cases nonterminal : s ∈ g.nonterminals
  · simp [nonterminal]
  by_cases terminal : s ∈ g.terminals
  · simp [nonterminal, terminal]
  rw [if_neg nonterminal, if_neg terminal]
  by_cases last : s = Symbol.endMark
  · simp [last]
  · rw [if_neg last]
    by_cases mark : s = Symbol.empty
    · simp [mark]
    · simp [nonterminal, terminal, last, mark]

theorem Derives.eq_endMark {form : List Symbol} (h : g.Derives [Symbol.endMark] form) :
    form = [Symbol.endMark] := by
  induction h with
  | refl => rfl
  | tail _ step ih =>
    generalize same : [Symbol.endMark] = before at ih
    subst ih
    obtain ⟨member, left, right⟩ := step
    obtain ⟨_, name, _⟩ := singleton_eq_append_cons same
    exact absurd name (nonterminal_ne_endMark (g.wellFormed.name_declared _ member))

theorem Precedes.mem {name x : Symbol} (h : g.Precedes name x) :
    x ∈ g.terminals ∨ x = Symbol.endMark :=
  h.imp And.left And.left

theorem not_precedes_empty (name : Symbol) : ¬ g.Precedes name Symbol.empty := by
  intro precedes
  rcases precedes.mem with terminal | mark
  · exact terminal_ne_empty terminal rfl
  · exact Symbol.empty_ne_endMark mark

theorem precedes_iff_of_reachable (reachable : ∀ s, s ∈ g.nonterminals → g.Reachable s)
    {name x : Symbol} : g.Precedes name x ↔ (x ∈ g.terminals ∨ x = Symbol.endMark) ∧
      ∃ left right, g.Derives [g.start, Symbol.endMark] (left ++ name :: x :: right) := by
  constructor
  · intro precedes
    refine ⟨precedes.mem, ?_⟩
    rcases precedes with ⟨_, root, nonterminal, left, right, inside⟩ | ⟨rfl, left, ends⟩
    · obtain ⟨front, back, reached⟩ := reachable root nonterminal
      have around := reached.trans (by simpa using inside.context front back)
      have whole := around.context [] [Symbol.endMark]
      exact ⟨front ++ left, right ++ back ++ [Symbol.endMark], by simpa using whole⟩
    · have whole := ends.context [] [Symbol.endMark]
      exact ⟨left, [], by simpa using whole⟩
  · rintro ⟨kind, left, right, derives⟩
    obtain ⟨form, last, whole, first, second⟩ := Derives.split (u := [g.start]) derives
    obtain rfl := second.eq_endMark
    -- The token stands in what the start symbol derives, or it is the end mark after all of that.
    have place : left ++ name :: x :: right = (left ++ [name]) ++ x :: right := by simp
    rw [place] at whole
    rcases append_eq_append_cons whole.symm with ⟨rest, rfl, _⟩ | ⟨rest, ends, single⟩
    · have terminal := terminal_of_declared kind (first.declared start_declared x (by simp))
      exact Or.inl ⟨terminal, g.start, g.start_mem, left, rest, by simpa using first⟩
    · obtain ⟨rfl, rfl, _⟩ := singleton_eq_append_cons single
      rw [List.append_nil] at ends
      exact Or.inr ⟨rfl, left, ends ▸ first⟩

end Grammar

namespace First

variable {g : Grammar}

theorem has_empty {F : Family} (on : Family.SettledOn (Closed g.productions) (initial g) F)
    {x : Symbol} : F.Has Symbol.empty x ↔ x = Symbol.empty := by
  constructor
  · intro member
    -- No production is named by the mark, so its set stays as it was at first.
    refine on.least (fun s y => s = Symbol.empty → y = Symbol.empty) ?_ ?_ _ x member rfl
    · intro p rule y _ mark
      exact absurd mark (Grammar.name_ne_empty rule)
    · intro s y first mark
      exact (initial_has.mp first).1.trans mark
  · rintro rfl
    exact on.below.has (initial_has.mpr ⟨rfl, Or.inl rfl⟩)

theorem has_iff_begins {F : Family}
    (on : Family.SettledOn (Closed g.productions) (initial g) F) {s : Symbol} (known : g.Knows s)
    (x : Symbol) : F.Has s x ↔ g.Begins (Symbol.written [s]) x := by
  by_cases mark : s = Symbol.empty
  · subst mark
    rw [has_empty on, Symbol.written_empty, Symbol.written_nil, Grammar.begins_nil]
  · rw [Symbol.written_cons mark, Symbol.written_nil]
    exact (Exact.of_settledOn on).has_iff s ((Grammar.knows_iff.mp known).resolve_left mark) x

theorem defines_of_knows {F : Family}
    (on : Family.SettledOn (Closed g.productions) (initial g) F) {s : Symbol} (known : g.Knows s) :
    F.Defines s := by
  have itself : s = Symbol.empty ∨ s = Symbol.endMark ∨ s ∈ g.terminals → F.Defines s :=
    fun kind => (on.below.has (initial_has.mpr ⟨rfl, kind⟩)).defines
  rcases Grammar.knows_iff.mp known with mark | terminal | nonterminal | last
  · exact itself (Or.inl mark)
  · exact itself (Or.inr (Or.inr terminal))
  · exact on.below.defines (initial_defines (Or.inr nonterminal))
  · exact itself (Or.inr (Or.inl last))

end First

namespace Analysis

theorem analysis_steps {g : Grammar} {a : Analysis} (made : g.analysis = .ok a) :
    First.close g (First.initial g) = .ok a.first ∧
      Follow.close g a.firsts (Follow.initial g) = .ok a.follow := by
  unfold Grammar.analysis at made
  split at made
  · cases made
  · rename_i first closed
    split at made
    · cases made
    · rename_i follow closed'
      cases made
      exact ⟨closed, closed'⟩

/-- FIRST is exact. Its loop ends, and then the set of a sequence of known symbols contains a
terminal or the end mark exactly if the sequence derives a form that begins with it, and `ε` exactly
if it derives the empty string. The sets of single symbols say the same of these. -/
theorem firsts_exact (g : Grammar) : ∃ a, g.analysis = .ok a ∧
    (First.initial g).Settles (First.sweep g) a.first ∧
    (∀ α, (∀ s ∈ α, g.Knows s) → ∃ set, a.firsts.leading α = .ok set ∧
      ∀ x, x ∈ set ↔ g.Begins (Symbol.written α) x) ∧
    ∀ s, g.Knows s → ∃ set empty, a.firsts.find s = .ok set ∧ a.isNullable s = .ok empty ∧
      (∀ x, x ∈ set ↔ g.Begins (Symbol.written [s]) x) ∧
        (empty = true ↔ g.Derives (Symbol.written [s]) []) := by
  obtain ⟨a, made, of⟩ := analysis_ok g
  obtain ⟨closed, _⟩ := analysis_steps made
  obtain ⟨settled, closed', on⟩ := First.close_ok (F := First.initial g) fun _ => First.initial_defines
  obtain rfl : a.first = settled := by simpa [closed] using closed'
  refine ⟨a, made, Family.settles_of_settle closed, ?_, ?_⟩
  · intro α known
    obtain ⟨set, computed, spec⟩ := Family.leading_spec (F := a.firsts) (α := α)
      fun s member _ => First.defines_of_knows on (known s member)
    refine ⟨set, computed, fun x => (spec x).trans (of.first.leads_iff ?_ x)⟩
    exact fun s member => Grammar.knows_iff.mp (known s member)
  · intro s known
    obtain ⟨set, found⟩ := First.defines_of_knows on known
    have begins : ∀ x, x ∈ set ↔ g.Begins (Symbol.written [s]) x :=
      fun x => (Family.has_iff found x).symm.trans (First.has_iff_begins on known x)
    have computed : a.isNullable s = .ok (decide (Symbol.empty ∈ set)) := by
      simp [isNullable, firsts, found, Except.map]
    refine ⟨set, _, found, computed, begins, ?_⟩
    rw [decide_eq_true_iff, begins, Grammar.begins_empty]

end Analysis

theorem Sample.textbook_firsts_exact : ∃ a, textbookGrammar.analysis = .ok a ∧
    ∃ set, a.firsts.leading ["A", Symbol.empty, Symbol.endMark] = .ok set ∧
      ∀ x, x ∈ set ↔ textbookGrammar.Begins ["A", Symbol.endMark] x := by
  have known : ∀ s ∈ ["A", Symbol.empty, Symbol.endMark], textbookGrammar.Knows s := by
    have kinds : ∀ s ∈ ["A", Symbol.empty, Symbol.endMark],
        (textbookGrammar.kind? s).isSome = true := by decide +kernel
    exact kinds
  obtain ⟨a, made, _, sequences, _⟩ := Analysis.firsts_exact textbookGrammar
  exact ⟨a, made, sequences _ known⟩

namespace Analysis

/-- FOLLOW is exact. Its loop ends, and then the set of a nonterminal contains the terminals that
stand right after it in a form that any nonterminal derives, and the end mark if it can stand at the
end of what the start symbol derives. -/
theorem follows_exact (g : Grammar) : ∃ a, g.analysis = .ok a ∧
    (Follow.initial g).Settles (Follow.sweep g a.firsts) a.follow ∧
    ∀ name, name ∈ g.nonterminals → ∃ set, a.follows.find name = .ok set ∧
      (∀ x, x ∈ g.terminals → (x ∈ set ↔ ∃ root ∈ g.nonterminals, ∃ left right,
        g.Derives [root] (left ++ name :: x :: right))) ∧
      (Symbol.endMark ∈ set ↔ ∃ left, g.Derives [g.start] (left ++ [name])) ∧
      ¬ Symbol.empty ∈ set ∧
      ((∀ s, s ∈ g.nonterminals → g.Reachable s) → ∀ x, x ∈ set ↔
        (x ∈ g.terminals ∨ x = Symbol.endMark) ∧ ∃ left right,
          g.Derives [g.start, Symbol.endMark] (left ++ name :: x :: right)) := by
  obtain ⟨a, made, of⟩ := analysis_ok g
  obtain ⟨_, closed⟩ := analysis_steps made
  refine ⟨a, made, Family.settles_of_settle closed, fun name nonterminal => ?_⟩
  obtain ⟨set, found⟩ := of.follow.defines name nonterminal
  have precedes : ∀ x, x ∈ set ↔ g.Precedes name x :=
    fun x => (Family.has_iff found x).symm.trans (of.follow.has_iff name nonterminal x)
  refine ⟨set, found, ?_, ?_, ?_, ?_⟩
  · intro x terminal
    have other := Grammar.terminal_ne_endMark terminal
    simp [precedes, Grammar.Precedes, terminal, other]
  · have none : ¬ Symbol.endMark ∈ g.terminals :=
      fun terminal => Grammar.terminal_ne_endMark terminal rfl
    simp [precedes, Grammar.Precedes, none]
  · rw [precedes]
    exact Grammar.not_precedes_empty name
  · intro reachable x
    rw [precedes, Grammar.precedes_iff_of_reachable reachable]

end Analysis

theorem Sample.textbook_follows_exact : ∃ a, textbookGrammar.analysis = .ok a ∧
    ∃ set, a.follows.find "A" = .ok set ∧
      ∀ x, x ∈ set ↔ (x ∈ textbookGrammar.terminals ∨ x = Symbol.endMark) ∧ ∃ left right,
        textbookGrammar.Derives ["S", Symbol.endMark] (left ++ "A" :: x :: right) := by
  obtain ⟨a, made, _, each⟩ := Analysis.follows_exact textbookGrammar
  obtain ⟨set, found, _, _, _, whole⟩ := each "A" (by decide +kernel)
  exact ⟨a, made, set, found, whole fun s member => (textbook_reduced s member).1⟩

end TopDown
