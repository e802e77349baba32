import TopDown.Proofs.LeftRecursion

namespace TopDown

namespace Production

def rule (p : Production) : Symbol × List Symbol := (p.name, p.symbols)

variable {p q : Production}

theorem name_eq_of_rule (same : p.rule = q.rule) : p.name = q.name := (Prod.mk.inj same).1

theorem symbols_eq_of_rule (same : p.rule = q.rule) : p.symbols = q.symbols := (Prod.mk.inj same).2

theorem body_eq_of_rule (same : p.rule = q.rule) : p.body = q.body := by
  rw [body, body, symbols_eq_of_rule same]

theorem sameRule_eq_false_iff : p.sameRule q = false ↔ p.rule ≠ q.rule := by
  rw [← Bool.not_eq_true, sameRule_iff, rule, rule, ne_eq, Prod.mk.injEq]

theorem nodup_rules_iff {ps : List Production} :
    (ps.map rule).Nodup ↔ ps.Pairwise fun p q => p.sameRule q = false := by
  rw [List.nodup_iff_pairwise_ne, List.pairwise_map]
  simp only [sameRule_eq_false_iff]

end Production

namespace Grammar

theorem nodup_rules (g : Grammar) : (g.productions.map Production.rule).Nodup :=
  Production.nodup_rules_iff.mpr g.wellFormed.distinct

theorem eq_of_rule {g : Grammar} {p q : Production} (hp : p ∈ g.productions)
    (hq : q ∈ g.productions) (same : p.rule = q.rule) : p = q :=
  List.inj_on_of_nodup_map g.nodup_rules hp hq same

/-- The productions of the first grammar are also in the second one, at whatever places. -/
structure Within (g h : Grammar) : Prop where
  start_eq : g.start = h.start
  terminals_eq : g.terminals = h.terminals
  nonterminals_eq : g.nonterminals = h.nonterminals
  exists_rule : ∀ p ∈ g.productions, ∃ q ∈ h.productions, q.rule = p.rule

namespace Within

variable {g h : Grammar} {s t x : Symbol} {u v form : List Symbol} {p q : Production}

theorem rewrites (within : g.Within h) (step : g.Rewrites u v) : h.Rewrites u v := by
  obtain ⟨member, left, right⟩ := step
  obtain ⟨q, held, same⟩ := within.exists_rule _ member
  rw [← Production.name_eq_of_rule same, ← Production.body_eq_of_rule same]
  exact .replace held left right

theorem derives (within : g.Within h) (derives : g.Derives u v) : h.Derives u v :=
  Relation.ReflTransGen.mono (fun _ _ => within.rewrites) _ _ derives

theorem begins (within : g.Within h) (begins : g.Begins form x) : h.Begins form x := by
  unfold Begins at begins ⊢
  rw [← within.terminals_eq]
  rcases begins with ⟨mark, empty⟩ | ⟨kind, rest, first⟩
  · exact Or.inl ⟨mark, within.derives empty⟩
  · exact Or.inr ⟨kind, rest, within.derives first⟩

theorem precedes (within : g.Within h) (precedes : g.Precedes s x) : h.Precedes s x := by
  unfold Precedes at precedes ⊢
  rw [← within.terminals_eq, ← within.nonterminals_eq, ← within.start_eq]
  rcases precedes with ⟨terminal, root, known, left, right, inside⟩ | ⟨mark, left, ends⟩
  · exact Or.inl ⟨terminal, root, known, left, right, within.derives inside⟩
  · exact Or.inr ⟨mark, left, within.derives ends⟩

theorem predicts (within : g.Within h) (same : p.rule = q.rule) (predicts : g.Predicts p x) :
    h.Predicts q x := by
  unfold Predicts Next at predicts ⊢
  rw [← Production.body_eq_of_rule same, ← Production.name_eq_of_rule same]
  rcases predicts with ⟨plain, first⟩ | ⟨empty, after⟩
  · exact Or.inl ⟨plain, within.begins first⟩
  · exact Or.inr ⟨within.derives empty, within.precedes after⟩

theorem leftEdge (within : g.Within h) (edge : g.LeftEdge s t) : h.LeftEdge s t := by
  obtain ⟨p, member, name, left, right, symbols, nonterminal, empty⟩ := edge
  obtain ⟨q, held, same⟩ := within.exists_rule p member
  refine ⟨q, held, (Production.name_eq_of_rule same).trans name, left, right,
    (Production.symbols_eq_of_rule same).trans symbols, within.nonterminals_eq ▸ nonterminal, ?_⟩
  intro r inside
  exact ⟨within.nonterminals_eq ▸ (empty r inside).1, within.derives (empty r inside).2⟩

theorem separated (within : g.Within h) (separated : h.Separated) : g.Separated := by
  intro p hp q hq name x selectsP selectsQ
  obtain ⟨p', heldP, sameP⟩ := within.exists_rule p hp
  obtain ⟨q', heldQ, sameQ⟩ := within.exists_rule q hq
  have names : p'.name = q'.name := by
    rw [Production.name_eq_of_rule sameP, name, Production.name_eq_of_rule sameQ]
  have one := separated p' heldP q' heldQ names x (within.predicts sameP.symm selectsP)
    (within.predicts sameQ.symm selectsQ)
  exact eq_of_rule hp hq (sameP.symm.trans ((congrArg _ one).trans sameQ))

end Within

end Grammar

end TopDown
