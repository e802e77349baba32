import TopDown.Proofs.Family.Agreement
import TopDown.Proofs.Table.Outcome

namespace TopDown

def Conflict.cell (c : Conflict) : Symbol × Symbol := (c.nonterminal, c.terminal)

namespace Draft

def cell (e : Submission) : Symbol × Symbol := (e.2.name, e.1)

variable {earlier rest xs ys : List Submission} {e : Submission}

theorem cells_clash (fresh : e ∉ earlier) : (clash earlier e).map Conflict.cell =
    if cell e ∈ earlier.map cell then [cell e] else [] := by
  unfold clash
  split
  · rename_i held found
    obtain ⟨member, name⟩ := holder_eq_some found
    have other : held ≠ e.2 := by
      rintro rfl
      exact fresh member
    have taken : cell e ∈ earlier.map cell :=
      List.mem_map.mpr ⟨(e.1, held), member, by rw [cell, cell, name]⟩
    rw [if_neg other, if_pos taken]
    rfl
  · rename_i none
    have free : cell e ∉ earlier.map cell := by
      intro taken
      obtain ⟨f, member, same⟩ := List.mem_map.mp taken
      obtain ⟨held, found⟩ := holder_of_mem member
      obtain ⟨name, token⟩ := Prod.mk.inj same
      rw [name, token, none] at found
      cases found
    rw [if_neg free]
    rfl

/-- Each submission for a cell is the first one there, or it ends in a conflict. -/
theorem count_clashes (nodup : (earlier ++ rest).Nodup) (place : Symbol × Symbol) :
    ((clashes earlier rest).map Conflict.cell).count place + ((earlier.map cell).count place - 1) =
      ((earlier ++ rest).map cell).count place - 1 := by
  induction rest generalizing earlier with
  | nil => simp [clashes]
  | cons e rest ih =>
    rw [List.append_cons] at nodup ⊢
    have fresh : e ∉ earlier := by
      intro member
      have apart := (List.nodup_append.mp (List.nodup_append.mp nodup).1).2.2
      exact apart e member e (List.mem_singleton_self e) rfl
    have later := ih nodup
    rw [← later, clashes, List.map_append, List.count_append, cells_clash fresh, List.map_append,
      List.count_append]
    by_cases here : cell e = place
    · subst here
      by_cases taken : cell e ∈ earlier.map cell
      · have held := List.count_pos_iff.mpr taken
        rw [if_pos taken]
        simp only [List.map_singleton, List.count_singleton_self]
        omega
      · rw [if_neg taken, List.count_eq_zero_of_not_mem taken]
        simp
    · have single : List.count place [cell e] = 0 :=
        List.count_eq_zero_of_not_mem (by simpa using Ne.symm here)
      split <;> simp [single]

theorem perm_cells_clashes (nodup : xs.Nodup) (nodup' : ys.Nodup)
    (perm : (xs.map cell).Perm (ys.map cell)) :
    ((clashes [] xs).map Conflict.cell).Perm ((clashes [] ys).map Conflict.cell) := by
  rw [List.perm_iff_count]
  intro place
  have first := @count_clashes [] xs nodup place
  have second := @count_clashes [] ys nodup' place
  rw [List.nil_append, perm.count_eq] at first
  rw [List.nil_append] at second
  simpa using first.trans second.symm

end Draft

namespace Grammar.Within

variable {g h : Grammar}

theorem perm_rules (within : g.Within h) (back : h.Within g) :
    (g.productions.map Production.rule).Perm (h.productions.map Production.rule) := by
  rw [List.perm_ext_iff_of_nodup g.nodup_rules h.nodup_rules]
  intro rule
  simp only [List.mem_map]
  constructor
  · rintro ⟨p, member, rfl⟩
    exact within.exists_rule p member
  · rintro ⟨q, member, rfl⟩
    exact back.exists_rule q member

end Grammar.Within

namespace Analysis

variable {g h : Grammar} {a b : Analysis}

def cellsOf (a : Analysis) (rule : Symbol × List Symbol) : List (Symbol × Symbol) :=
  (a.submissionsOf ⟨rule.1, rule.2, 0⟩).map Draft.cell

theorem cells_submissionsOf (a : Analysis) (p : Production) :
    (a.submissionsOf p).map Draft.cell = a.cellsOf p.rule := by
  have same : a.predict ⟨p.rule.1, p.rule.2, 0⟩ = a.predict p := rfl
  unfold cellsOf submissionsOf
  rw [same]
  cases a.predict p <;> simp [Draft.cell, Production.rule]

theorem submissions_nodup (of : a.IsOf g) : (g.productions.flatMap a.submissionsOf).Nodup := by
  refine (submissions_pairwise of).imp ?_
  rintro e _ before rfl
  exact Draft.not_before_self e before

theorem Agree.cellsOf_eq (agree : a.Agree b) : a.cellsOf = b.cellsOf := by
  funext rule
  rw [cellsOf, cellsOf, submissionsOf, submissionsOf, agree.predict_eq _ _ rfl]

theorem Agree.perm_cells (agree : a.Agree b) (of : a.IsOf g) (of' : b.IsOf h)
    (within : g.Within h) (back : h.Within g) :
    ((Draft.clashes [] (g.productions.flatMap a.submissionsOf)).map Conflict.cell).Perm
      ((Draft.clashes [] (h.productions.flatMap b.submissionsOf)).map Conflict.cell) := by
  have cells : ∀ (c : Analysis) (ps : List Production),
      (ps.flatMap c.submissionsOf).map Draft.cell = (ps.map Production.rule).flatMap c.cellsOf := by
    intro c ps
    simp only [List.map_flatMap, List.flatMap_map, cells_submissionsOf]
  apply Draft.perm_cells_clashes (submissions_nodup of) (submissions_nodup of')
  rw [cells, cells, agree.cellsOf_eq]
  exact (within.perm_rules back).flatMap_right _

end Analysis

end TopDown
