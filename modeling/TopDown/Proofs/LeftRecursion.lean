import TopDown.Proofs.Digraph.Cycle
import TopDown.Proofs.Table.Filling

namespace TopDown

namespace Grammar

/-- A nonterminal that the symbols can begin with, when what stands before it is empty. -/
def Corner (g : Grammar) (symbols : List Symbol) (s : Symbol) : Prop :=
  ∃ left right, symbols = left ++ s :: right ∧ s ∈ g.nonterminals ∧
    ∀ r ∈ left, r ∈ g.nonterminals ∧ g.Derives [r] []

variable {g : Grammar}

theorem not_corner_nil {t : Symbol} : ¬ g.Corner [] t := by
  intro corner
  obtain ⟨left, right, whole, _⟩ := corner
  simp at whole

theorem corner_cons {s t : Symbol} {rest : List Symbol} :
    g.Corner (s :: rest) t ↔
      s ∈ g.nonterminals ∧ (t = s ∨ (g.Derives [s] [] ∧ g.Corner rest t)) := by
  constructor
  · intro corner
    obtain ⟨left, right, whole, nonterminal, empty⟩ := corner
    cases left with
    | nil =>
      obtain ⟨rfl, rfl⟩ := List.cons_eq_cons.mp whole
      exact ⟨nonterminal, Or.inl rfl⟩
    | cons r left =>
      obtain ⟨rfl, rfl⟩ := List.cons_eq_cons.mp whole
      have first := empty s (by simp)
      have later := fun r inside => empty r (List.mem_cons_of_mem s inside)
      exact ⟨first.1, Or.inr ⟨first.2, left, right, rfl, nonterminal, later⟩⟩
  · intro ⟨nonterminal, cases⟩
    rcases cases with rfl | ⟨empty, left, right, rfl, inside, before⟩
    · exact ⟨[], rest, rfl, nonterminal, by simp⟩
    · refine ⟨s :: left, right, rfl, inside, fun r member => ?_⟩
      rcases List.mem_cons.mp member with rfl | member
      · exact ⟨nonterminal, empty⟩
      · exact before r member

theorem corner_of_derives_nil {symbols : List Symbol}
    (known : ∀ s ∈ symbols, s ∈ g.terminals ∨ s ∈ g.nonterminals) (derives : g.Derives symbols [])
    {s : Symbol} (member : s ∈ symbols) : g.Corner symbols s := by
  induction symbols with
  | nil => cases member
  | cons r rest ih =>
    obtain ⟨first, later⟩ := derives.nil_of_append (u := [r])
    have nonterminal := nonterminal_of_derives_nil (known r (by simp)) first
    rcases List.mem_cons.mp member with rfl | member
    · exact corner_cons.mpr ⟨nonterminal, Or.inl rfl⟩
    · have inside := ih (fun t held => known t (by simp [held])) later member
      exact corner_cons.mpr ⟨nonterminal, Or.inr ⟨first, inside⟩⟩

def LeftEdge (g : Grammar) (s t : Symbol) : Prop :=
  ∃ p ∈ g.productions, p.name = s ∧ g.Corner p.symbols t

end Grammar

namespace Analysis

variable {g : Grammar} {a : Analysis}

theorem corners_ok (of : a.IsOf g) (symbols : List Symbol) :
    ∃ found, a.corners symbols = .ok found ∧ ∀ t, t ∈ found ↔ g.Corner symbols t := by
  induction symbols with
  | nil => exact ⟨[], rfl, fun t => by simp [Grammar.not_corner_nil]⟩
  | cons s rest ih =>
    by_cases nonterminal : s ∈ g.nonterminals
    · have isNonterminal : a.grammar.isNonterminal s = true := by
        simpa [Grammar.isNonterminal, of.grammar_eq] using nonterminal
      obtain ⟨empty, computed, spec⟩ := isNullable_ok of nonterminal
      obtain ⟨later, found, specLater⟩ := ih
      cases empty with
      | true =>
        have derives := spec.mp rfl
        refine ⟨s :: later, by simp [corners, isNonterminal, computed, found, Except.map], ?_⟩
        intro t
        rw [List.mem_cons, specLater, Grammar.corner_cons]
        simp [nonterminal, derives]
      | false =>
        have never : ¬ g.Derives [s] [] := by
          intro derives
          cases spec.mpr derives
        refine ⟨[s], by simp [corners, isNonterminal, computed], ?_⟩
        intro t
        rw [List.mem_singleton, Grammar.corner_cons]
        simp [nonterminal, never]
    · have other : a.grammar.isNonterminal s = false := by
        simpa [Grammar.isNonterminal, of.grammar_eq] using nonterminal
      refine ⟨[], by simp [corners, other], fun t => ?_⟩
      rw [Grammar.corner_cons]
      simp [nonterminal]

theorem cornersOfAll_ok (of : a.IsOf g) (ps : List Production) :
    ∃ found, a.cornersOfAll ps = .ok found ∧
      ∀ t, t ∈ found ↔ ∃ p ∈ ps, g.Corner p.symbols t := by
  induction ps with
  | nil => exact ⟨[], rfl, by simp⟩
  | cons p rest ih =>
    obtain ⟨first, foundFirst, specFirst⟩ := corners_ok of p.symbols
    obtain ⟨later, foundLater, specLater⟩ := ih
    refine ⟨first ++ later, by simp [cornersOfAll, foundFirst, foundLater, Except.map], ?_⟩
    intro t
    simp [specFirst, specLater]

theorem cornerRows_ok (of : a.IsOf g) (names : List Symbol) :
    ∃ rows, a.cornerRows names = .ok rows ∧ rows.map (·.1) = names ∧
      ∀ s ∈ names, ∃ next, rows.lookup s = some next ∧ ∀ t, t ∈ next ↔ g.LeftEdge s t := by
  induction names with
  | nil => exact ⟨[], rfl, rfl, by simp⟩
  | cons r names ih =>
    obtain ⟨found, computed, spec⟩ := cornersOfAll_ok of (a.grammar.productionsOf r)
    obtain ⟨rows, computedRows, same, each⟩ := ih
    refine ⟨(r, found.eraseDups) :: rows,
      by simp [cornerRows, computed, computedRows, Except.map], by simp [same], ?_⟩
    intro s member
    by_cases first : s = r
    · subst first
      refine ⟨found.eraseDups, List.lookup_cons_self, fun t => ?_⟩
      rw [List.mem_eraseDups, spec]
      simp only [Grammar.productionsOf, of.grammar_eq, List.mem_filter, beq_iff_eq,
        Grammar.LeftEdge, and_assoc]
    · obtain ⟨next, held, edges⟩ := each s ((List.mem_cons.mp member).resolve_left first)
      have other : (s == r) = false := by simpa using first
      exact ⟨next, by simpa [List.lookup_cons, other] using held, edges⟩

theorem leftGraph_ok (of : a.IsOf g) :
    ∃ G, a.leftGraph = .ok G ∧ G.vertices = g.nonterminalList ∧
      ∀ s, s ∈ g.nonterminals → ∃ next, G.successors s = .ok next ∧
        ∀ t, t ∈ next ↔ g.LeftEdge s t := by
  obtain ⟨rows, computed, same, each⟩ := cornerRows_ok of g.nonterminalList
  refine ⟨⟨rows⟩, by simp [leftGraph, of.grammar_eq, computed, Except.map], same, ?_⟩
  intro s member
  obtain ⟨next, held, edges⟩ := each s (Grammar.mem_nonterminalList.mpr member)
  exact ⟨next, by simp [Digraph.successors, held], edges⟩

/-- Ranks below the number of nonterminals, which fall along every edge. -/
theorem exists_rank (of : a.IsOf g) (none : a.leftRecursion = .ok none) :
    ∃ rank : Symbol → Nat, (∀ s, s ∈ g.nonterminals → rank s < g.nonterminalList.length) ∧
      ∀ s t, s ∈ g.nonterminals → g.LeftEdge s t → rank t < rank s := by
  obtain ⟨G, computed, vertices, edges⟩ := leftGraph_ok of
  simp only [leftRecursion, computed] at none
  obtain ⟨finished, ordered, all⟩ := Digraph.exists_ordered none
  have inside : ∀ s, s ∈ g.nonterminals → s ∈ finished := by
    intro s member
    exact all s (vertices ▸ Grammar.mem_nonterminalList.mpr member)
  refine ⟨finished.idxOf, ?_, ?_⟩
  · intro s member
    exact vertices ▸ ordered.idxOf_lt_length (inside s member)
  · intro s t member edge
    obtain ⟨next, found, spec⟩ := edges s member
    exact ordered.idxOf_lt (inside s member) found ((spec t).mpr edge)

theorem leftRecursion_isCycle (of : a.IsOf g) :
    ∃ found, a.leftRecursion = .ok found ∧
      ∀ cycle, found = some cycle → IsCycle g.LeftEdge cycle := by
  obtain ⟨G, computed, vertices, edges⟩ := leftGraph_ok of
  have nonterminal : ∀ s, s ∈ G.vertices ↔ s ∈ g.nonterminals := by
    intro s
    rw [vertices, Grammar.mem_nonterminalList]
  have closed : G.Closed := by
    intro s vertex
    obtain ⟨next, found, spec⟩ := edges s ((nonterminal s).mp vertex)
    refine ⟨next, found, fun t member => ?_⟩
    obtain ⟨_, _, _, _, _, _, inside, _⟩ := (spec t).mp member
    exact (nonterminal t).mpr inside
  have leads : ∀ s t, G.Edge s t → g.LeftEdge s t := by
    intro s t ⟨next, found, member⟩
    have vertex := Digraph.mem_vertices found
    obtain ⟨next', found', spec⟩ := edges s ((nonterminal s).mp vertex)
    rw [found] at found'
    cases found'
    exact (spec t).mp member
  obtain ⟨found, searched, sound⟩ := Digraph.findCycle_sound closed
  refine ⟨found, ?_, fun cycle same => (sound cycle same).imp leads⟩
  simp only [leftRecursion, computed, searched]

theorem leftRecursion_ok (of : a.IsOf g) :
    ∃ found, a.leftRecursion = .ok found ∧
      ∀ cycle, found = some cycle → IsCircuit g.LeftEdge cycle := by
  obtain ⟨found, searched, cyclic⟩ := leftRecursion_isCycle of
  exact ⟨found, searched, fun cycle same => (cyclic cycle same).circuit⟩

end Analysis

end TopDown
