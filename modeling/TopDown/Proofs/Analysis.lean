import TopDown.Analysis
import TopDown.Proofs.Family.Follow

namespace TopDown

/-- The token can come next when a production is expanded: its right side can begin with the token,
or it can be empty and the token can stand after its name. -/
def Grammar.Predicts (g : Grammar) (p : Production) (x : Symbol) : Prop :=
  g.Next p.body (g.Precedes p.name) x

namespace Analysis

/-- An analysis with the facts that it states of its grammar. -/
structure IsOf (a : Analysis) (g : Grammar) : Prop where
  grammar_eq : a.grammar = g
  first : First.Exact g a.firsts
  follow : Follow.Exact g a.follows

variable {g : Grammar} {a : Analysis}

theorem follows_find {s : Symbol} {set : SymbolSet} (found : a.follow.family.find s = .ok set) :
    a.follows.find s = .ok set := by
  rw [Family.find_eq_ok] at found ⊢
  simp [follows, List.lookup_append, found]

theorem follows_has {s : Symbol} (defined : a.follow.family.Defines s) (x : Symbol) :
    a.follows.Has s x ↔ a.follow.family.Has s x := by
  obtain ⟨set, found⟩ := defined
  rw [Family.has_iff found, Family.has_iff (follows_find found)]

theorem analysis_ok (g : Grammar) : ∃ a, g.analysis = .ok a ∧ a.IsOf g := by
  obtain ⟨first, closedFirst, exactFirst⟩ := First.close_initial g
  obtain ⟨follow, closedFollow, exactFollow⟩ := Follow.close_initial exactFirst
  refine ⟨⟨g, first, follow⟩, by simp [Grammar.analysis, closedFirst, closedFollow], rfl,
    exactFirst, ?_, ?_⟩
  · intro s member
    obtain ⟨set, found⟩ := exactFollow.defines s member
    exact ⟨set, follows_find found⟩
  · intro s member x
    rw [follows_has (exactFollow.defines s member)]
    exact exactFollow.has_iff s member x

theorem IsOf.of_analysis (made : g.analysis = .ok a) : a.IsOf g := by
  obtain ⟨_, analysed, of⟩ := analysis_ok g
  rw [made] at analysed
  cases analysed
  exact of

theorem predict_ok (of : a.IsOf g) {p : Production} (member : p ∈ g.productions) :
    ∃ set, a.predict p = .ok set ∧ ∀ x, x ∈ set ↔ g.Predicts p x := by
  have known := g.wellFormed.symbol_declared p member
  have name := g.wellFormed.name_declared p member
  obtain ⟨first, computed, spec⟩ := Family.leading_spec (F := a.firsts) (α := p.symbols)
    fun s inside plain => of.first.defines s ((known s inside).resolve_left plain)
  obtain ⟨follow, found⟩ := of.follow.defines p.name name
  have begins : ∀ x, x ∈ first ↔ g.Begins p.body x :=
    fun x => (spec x).trans (of.first.leads_iff
      (fun s inside => (known s inside).imp id (Or.imp id Or.inl)) x)
  have precedes : ∀ x, x ∈ follow ↔ g.Precedes p.name x :=
    fun x => (Family.has_iff found x).symm.trans (of.follow.has_iff p.name name x)
  simp only [Grammar.Predicts, Grammar.Next, ← Grammar.begins_empty, ← begins, ← precedes]
  by_cases empty : Symbol.empty ∈ first
  · refine ⟨(first.erase Symbol.empty).union follow, ?_, fun x => ?_⟩
    · simp [predict, computed, empty, found, Except.map]
    · simp [empty, and_comm]
  · refine ⟨first, by simp [predict, computed, empty], fun x => ?_⟩
    have plain : x ∈ first → x ≠ Symbol.empty := fun inside mark => empty (mark ▸ inside)
    simp only [empty, false_and, or_false]
    exact ⟨fun inside => ⟨plain inside, inside⟩, And.right⟩

theorem isNullable_ok (of : a.IsOf g) {s : Symbol} (member : s ∈ g.nonterminals) :
    ∃ empty, a.isNullable s = .ok empty ∧ (empty = true ↔ g.Derives [s] []) := by
  obtain ⟨first, found⟩ := of.first.defines s (Or.inr member)
  refine ⟨decide (Symbol.empty ∈ first), by simp [isNullable, found, Except.map], ?_⟩
  rw [decide_eq_true_iff, ← Family.has_iff found,
    of.first.has_iff s (Or.inr (Or.inl member)), Grammar.begins_empty]

end Analysis

end TopDown
