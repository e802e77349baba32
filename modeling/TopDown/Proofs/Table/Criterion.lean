import TopDown.Proofs.Subgrammar
import TopDown.Proofs.Table.Outcome

namespace TopDown

theorem IsCircuit.not_falling {R : Symbol → Symbol → Prop} {circuit : List Symbol}
    (isCircuit : IsCircuit R circuit) (rank : Symbol → Nat) :
    ¬ ∀ s t, R s t → rank t < rank s := by
  intro falls
  obtain ⟨s, member⟩ := isCircuit.exists_mem
  induction height : rank s using Nat.strongRecOn generalizing s with
  | ind height ih =>
    obtain ⟨t, next, edge⟩ := isCircuit.exists_next member
    exact ih (rank t) (height ▸ falls s t edge) t next rfl

namespace Analysis

variable {g : Grammar} {a : Analysis}

theorem leftRecursion_eq_none_iff (of : a.IsOf g) :
    a.leftRecursion = .ok none ↔ ∀ cycle, ¬ IsCircuit g.LeftEdge cycle := by
  constructor
  · intro none cycle isCircuit
    obtain ⟨rank, _, falls⟩ := exists_rank of none
    refine isCircuit.not_falling rank fun s t edge => falls s t ?_ edge
    obtain ⟨p, rule, name, _⟩ := edge
    exact name ▸ g.wellFormed.name_declared p rule
  · intro acyclic
    obtain ⟨found, searched, sound⟩ := leftRecursion_ok of
    cases found with
    | none => exact searched
    | some cycle => exact absurd (sound cycle rfl) (acyclic cycle)

end Analysis

namespace Grammar

variable {g : Grammar}

/-- The search for left recursion comes first, so conflicts are only reported without it. -/
theorem table_cases (g : Grammar) :
    (∃ cycle, IsCircuit g.LeftEdge cycle ∧ g.table = .error (.leftRecursion cycle)) ∨
      (∀ cycle, ¬ IsCircuit g.LeftEdge cycle) ∧
        ((¬ g.Separated ∧ ∃ a : Analysis, g.analysis = .ok a ∧ a.IsOf g ∧
          g.table = .error (.conflicts
            (Draft.clashes [] (g.productions.flatMap a.submissionsOf)))) ∨
        g.Separated ∧ ∃ t, g.table = .ok t) := by
  obtain ⟨a, analysed, of⟩ := Analysis.analysis_ok g
  obtain ⟨recursion, searched, sound⟩ := Analysis.leftRecursion_ok of
  obtain ⟨d, drafted, records⟩ := Analysis.draft_ok of
  have outcome := Analysis.table_eq searched drafted
  have generated : g.table = a.table := by simp only [Grammar.table, analysed]
  rw [← generated] at outcome
  cases recursion with
  | some cycle => exact Or.inl ⟨cycle, sound cycle rfl, outcome⟩
  | none =>
    refine Or.inr ⟨(Analysis.leftRecursion_eq_none_iff of).mp searched, ?_⟩
    dsimp only at outcome
    by_cases free : d.conflicts = []
    · rw [if_pos free] at outcome
      exact Or.inr ⟨(Analysis.conflicts_eq_nil_iff of drafted).mp free, _, outcome⟩
    · rw [if_neg free, records.conflicts_eq] at outcome
      have mixed := mt (Analysis.conflicts_eq_nil_iff of drafted).mpr free
      exact Or.inl ⟨mixed, a, analysed, of, outcome⟩

theorem exists_leftRecursion {cycle : List Symbol} (isCircuit : IsCircuit g.LeftEdge cycle) :
    ∃ cycle, g.table = .error (.leftRecursion cycle) := by
  rcases g.table_cases with ⟨found, _, outcome⟩ | ⟨acyclic, _⟩
  · exact ⟨found, outcome⟩
  · exact absurd isCircuit (acyclic cycle)

theorem exists_conflicts (acyclic : ∀ cycle, ¬ IsCircuit g.LeftEdge cycle)
    (mixed : ¬ g.Separated) : ∃ a : Analysis, g.analysis = .ok a ∧ a.IsOf g ∧
      g.table = .error (.conflicts (Draft.clashes [] (g.productions.flatMap a.submissionsOf))) := by
  rcases g.table_cases with ⟨cycle, isCircuit, _⟩ | ⟨_, ⟨_, conflicts⟩ | ⟨separated, _⟩⟩
  · exact absurd isCircuit (acyclic cycle)
  · exact conflicts
  · exact absurd separated mixed

theorem exists_table (acyclic : ∀ cycle, ¬ IsCircuit g.LeftEdge cycle)
    (separated : g.Separated) : ∃ t, g.table = .ok t := by
  rcases g.table_cases with ⟨cycle, isCircuit, _⟩ | ⟨_, ⟨mixed, _⟩ | ⟨_, made⟩⟩
  · exact absurd isCircuit (acyclic cycle)
  · exact absurd separated mixed
  · exact made

namespace Within

variable {h : Grammar} {u : Table}

theorem circuit {cycle : List Symbol} (within : g.Within h)
    (isCircuit : IsCircuit g.LeftEdge cycle) : IsCircuit h.LeftEdge cycle :=
  isCircuit.imp fun _ _ => within.leftEdge

theorem exists_table (within : g.Within h) (made : h.table = .ok u) : ∃ t, g.table = .ok t := by
  obtain ⟨a, of, none, isOf⟩ := table_isOf made
  have acyclic := (Analysis.leftRecursion_eq_none_iff of).mp none
  refine Grammar.exists_table ?_ (within.separated isOf.separated)
  exact fun cycle isCircuit => acyclic cycle (within.circuit isCircuit)

end Within

end Grammar

end TopDown
