import TopDown.Proofs.Analysis.Exact
import TopDown.Proofs.Subgrammar

namespace TopDown

namespace Family

variable {F G H : Family} {s : Symbol} {α : List Symbol}

theorem Below.symbols_eq (below : F.Below G) : F.symbols = G.symbols := by
  rw [symbols, symbols, ← List.forall₂_eq_eq_eq, List.forall₂_map_left_iff,
    List.forall₂_map_right_iff]
  exact below.imp fun _ _ same => same.1

theorem lookup_congr (same : F.find s = G.find s) : F.entries.lookup s = G.entries.lookup s := by
  ext set
  rw [← find_eq_ok, ← find_eq_ok, same]

theorem defines_iff : F.Defines s ↔ s ∈ F.symbols := by
  unfold Defines symbols
  simp only [find_eq_ok, ← Option.isSome_iff_exists]
  rw [List.lookup_isSome_iff]
  simp

theorem find_congr (symbols : F.symbols = G.symbols) (has : ∀ x, F.Has s x ↔ G.Has s x) :
    F.find s = G.find s := by
  have defines : F.Defines s ↔ G.Defines s := by rw [defines_iff, defines_iff, symbols]
  have absent : ∀ {K : Family}, ¬ K.Defines s → K.find s = .error (.unknownSymbol s) := by
    intro K none
    unfold find
    split
    · rename_i set found
      exact absurd ⟨set, find_eq_ok.mpr found⟩ none
    · rfl
  by_cases defined : F.Defines s
  · obtain ⟨set, found⟩ := defined
    obtain ⟨set', found'⟩ := defines.mp ⟨set, found⟩
    have same : set = set' := by
      ext x
      rw [← has_iff found, ← has_iff found', has]
    rw [found, found', same]
  · rw [absent defined, absent (mt defines.mpr defined)]

/-- The least families of conditions that come to the same are equal. -/
theorem SettledOn.find_eq {C D : (Symbol → Symbol → Prop) → Prop} (first : SettledOn C F G)
    (second : SettledOn D F H) (same : ∀ R, C R ↔ D R) (s : Symbol) : G.find s = H.find s := by
  refine find_congr (first.below.symbols_eq.symm.trans second.below.symbols_eq) fun x => ?_
  constructor
  · exact first.least H.Has ((same _).mpr second.closed) (fun _ _ => second.below.has) s x
  · exact second.least G.Has ((same _).mp first.closed) (fun _ _ => first.below.has) s x

theorem has_congr (same : ∀ s, F.find s = G.find s) : F.Has = G.Has := by
  funext s x
  rw [Has, Has, same]

theorem leading_congr (same : ∀ s, F.find s = G.find s) : F.leading α = G.leading α := by
  induction α with
  | nil => rfl
  | cons s α ih => rw [leading, leading, same, ih]

end Family

section Conditions

variable {g h : Grammar} {firsts firsts' : Family} {R : Symbol → Symbol → Prop}

theorem First.Closed.within (within : g.Within h) (closed : First.Closed h.productions R) :
    First.Closed g.productions R := by
  intro p member x leads
  obtain ⟨q, held, same⟩ := within.exists_rule p member
  rw [← Production.symbols_eq_of_rule same] at leads
  exact Production.name_eq_of_rule same ▸ closed q held x leads

theorem Follow.Closed.within (within : g.Within h) (same : firsts.Has = firsts'.Has)
    (closed : Follow.Closed h firsts' h.productions R) :
    Follow.Closed g firsts g.productions R := by
  intro p member
  obtain ⟨q, held, rule⟩ := within.exists_rule p member
  have stands : Follow.Stands g firsts = Follow.Stands h firsts' := by
    funext s x
    rw [Follow.Stands, Follow.Stands, within.nonterminals_eq, same]
  have demands := closed q held
  rw [Production.symbols_eq_of_rule rule, Production.name_eq_of_rule rule] at demands
  rw [Follow.Demands, within.nonterminals_eq, stands]
  exact demands

end Conditions

namespace Analysis

variable {g h : Grammar} {a b : Analysis} {p q : Production}

theorem first_settledOn (made : g.analysis = .ok a) :
    Family.SettledOn (First.Closed g.productions) (First.initial g) a.firsts := by
  obtain ⟨closed, _⟩ := analysis_steps made
  obtain ⟨settled, computed, on⟩ :=
    First.close_ok (F := First.initial g) fun _ => First.initial_defines
  rw [closed] at computed
  cases computed
  exact on

theorem follow_settledOn (made : g.analysis = .ok a) :
    Family.SettledOn (Follow.Closed g a.firsts g.productions) (Follow.initial g)
      a.follow.family := by
  have of := IsOf.of_analysis made
  obtain ⟨_, closed⟩ := analysis_steps made
  obtain ⟨settled, computed, on⟩ := Follow.close_ok (F := Follow.initial g)
    (fun s member => of.first.defines s (Or.inr member)) fun _ => Follow.initial_defines
  rw [closed] at computed
  cases computed
  exact on

theorem firsts_find_eq (within : g.Within h) (back : h.Within g) (made : g.analysis = .ok a)
    (made' : h.analysis = .ok b) (s : Symbol) : a.firsts.find s = b.firsts.find s := by
  have on := first_settledOn made
  have on' := first_settledOn made'
  have initial : First.initial g = First.initial h := by
    rw [First.initial, First.initial, within.terminals_eq, within.nonterminals_eq]
  rw [← initial] at on'
  exact on.find_eq on' (fun _ => ⟨.within back, .within within⟩) s

theorem follow_find_eq (within : g.Within h) (back : h.Within g) (made : g.analysis = .ok a)
    (made' : h.analysis = .ok b) (s : Symbol) :
    a.follow.family.find s = b.follow.family.find s := by
  have on := follow_settledOn made
  have on' := follow_settledOn made'
  have initial : Follow.initial g = Follow.initial h := by
    rw [Follow.initial, Follow.initial, within.nonterminals_eq, within.start_eq]
  have same : a.firsts.Has = b.firsts.Has :=
    Family.has_congr (firsts_find_eq within back made made')
  rw [← initial] at on'
  exact on.find_eq on' (fun _ => ⟨.within back same.symm, .within within same⟩) s

theorem follows_find_eq (within : g.Within h) (back : h.Within g) (made : g.analysis = .ok a)
    (made' : h.analysis = .ok b) (s : Symbol) : a.follows.find s = b.follows.find s := by
  have swept := Family.lookup_congr (follow_find_eq within back made made' s)
  have terminals : a.grammar.terminals = b.grammar.terminals := by
    rw [(IsOf.of_analysis made).grammar_eq, (IsOf.of_analysis made').grammar_eq,
      within.terminals_eq]
  rw [Family.find, Family.find, follows, follows, List.lookup_append, List.lookup_append, swept,
    terminals]

theorem predict_congr (firsts : ∀ s, a.firsts.find s = b.firsts.find s)
    (follows : ∀ s, a.follows.find s = b.follows.find s) (same : p.rule = q.rule) :
    a.predict p = b.predict q := by
  rw [predict, predict, Family.leading_congr firsts, follows, Production.symbols_eq_of_rule same,
    Production.name_eq_of_rule same]

structure Agree (a b : Analysis) : Prop where
  firsts_eq : ∀ s, a.firsts.find s = b.firsts.find s
  follows_eq : ∀ s, a.follows.find s = b.follows.find s
  predict_eq : ∀ p q, p.rule = q.rule → a.predict p = b.predict q

theorem Agree.of_within (within : g.Within h) (back : h.Within g) (made : g.analysis = .ok a)
    (made' : h.analysis = .ok b) : a.Agree b := by
  have firsts := firsts_find_eq within back made made'
  have follows := follows_find_eq within back made made'
  exact ⟨firsts, follows, fun _ _ => predict_congr firsts follows⟩

end Analysis

end TopDown
