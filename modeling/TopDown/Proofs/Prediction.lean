import TopDown.Proofs.Table.Filling

namespace TopDown

namespace Grammar

variable {g : Grammar} {s x : Symbol}

theorem Rewrites.of_name {form : List Symbol} (step : g.Rewrites [s] form) :
    ∃ p ∈ g.productions, p.name = s ∧ p.body = form := by
  generalize single : [s] = first at step
  obtain ⟨rule, before, after⟩ := step
  obtain ⟨rfl, name, rfl⟩ := singleton_eq_append_cons single
  exact ⟨_, rule, name, by simp⟩

theorem Derives.of_name {form : List Symbol} (h : g.Derives [s] form) :
    form = [s] ∨ ∃ p ∈ g.productions, p.name = s ∧ g.Derives p.body form := by
  rcases Relation.ReflTransGen.cases_head h with same | ⟨middle, step, rest⟩
  · exact Or.inl same.symm
  · obtain ⟨p, rule, name, rfl⟩ := step.of_name
    exact Or.inr ⟨p, rule, name, rest⟩

theorem begins_name_iff (nonterminal : s ∈ g.nonterminals) :
    g.Begins [s] x ↔ ∃ p ∈ g.productions, p.name = s ∧ g.Begins p.body x := by
  constructor
  · intro begins
    rcases begins with ⟨mark, derives⟩ | ⟨kind, rest, derives⟩
    · rcases derives.of_name with none | ⟨p, rule, name, body⟩
      · cases none
      · exact ⟨p, rule, name, Or.inl ⟨mark, body⟩⟩
    · rcases derives.of_name with same | ⟨p, rule, name, body⟩
      · obtain ⟨rfl, _⟩ := List.cons_eq_cons.mp same
        rcases kind with terminal | mark
        · exact absurd nonterminal (g.wellFormed.disjoint _ terminal)
        · exact absurd mark (nonterminal_ne_endMark nonterminal)
      · exact ⟨p, rule, name, Or.inr ⟨kind, rest, body⟩⟩
  · rintro ⟨p, rule, rfl, begins⟩
    exact begins.of_derives (Derives.of_production rule)

theorem exists_predicts_iff (nonterminal : s ∈ g.nonterminals) :
    (∃ p ∈ g.productions, p.name = s ∧ g.Predicts p x) ↔ g.Next [s] (g.Precedes s) x := by
  constructor
  · rintro ⟨p, rule, rfl, predicts⟩
    have expand := Derives.of_production rule
    exact predicts.imp (And.imp id (Begins.of_derives expand)) (And.imp expand.trans id)
  · intro next
    rcases next with ⟨plain, begins⟩ | ⟨vanish, precedes⟩
    · obtain ⟨p, rule, name, body⟩ := (begins_name_iff nonterminal).mp begins
      exact ⟨p, rule, name, Or.inl ⟨plain, body⟩⟩
    · obtain ⟨p, rule, rfl, body⟩ := (begins_name_iff nonterminal).mp (begins_empty.mpr vanish)
      exact ⟨p, rule, rfl, Or.inr ⟨begins_empty.mp body, precedes⟩⟩

theorem Separated.vanishes (separated : g.Separated) {p : Production} (rule : p ∈ g.productions)
    (plain : x ≠ Symbol.empty) (begins : g.Begins p.body x) (vanish : g.Derives [p.name] [])
    (precedes : g.Precedes p.name x) : g.Derives p.body [] := by
  have name := g.wellFormed.name_declared p rule
  obtain ⟨q, rule', same, body⟩ := (begins_name_iff name).mp (begins_empty.mpr vanish)
  have first : g.Predicts p x := Or.inl ⟨plain, begins⟩
  have second : g.Predicts q x := Or.inr ⟨begins_empty.mp body, same ▸ precedes⟩
  rw [separated p rule q rule' same.symm x first second]
  exact begins_empty.mp body

/-- Below a name that can be empty, the names on the way down to the token can be empty as well, and
the token can stand after each of them. So the way never reaches the token. -/
theorem Context.not_precedes (separated : g.Separated) {form left right : List Symbol}
    (context : g.Context form left x right) (front : left = []) (terminal : x ∈ g.terminals)
    {p : Production} (rule : p ∈ g.productions) (body : p.body = form)
    (vanish : g.Derives p.body []) : ¬ g.Precedes p.name x := by
  intro precedes
  induction context generalizing p with
  | @here before after _ _ x =>
    rw [body, ← List.singleton_append] at vanish
    have single := vanish.nil_of_append.2.nil_of_append.1
    cases single.eq_of_isWord (isWord_nil.cons terminal)
  | @within before after _ _ inner outer x q rule' _ _ inside ih =>
    obtain ⟨_, rfl⟩ := List.append_eq_nil_iff.mp front
    rw [body, ← List.singleton_append] at vanish
    obtain ⟨single, later⟩ := vanish.nil_of_append.2.nil_of_append
    have above : g.Precedes q.name x := Precedes.of_body rule body (Or.inr ⟨later, precedes⟩)
    have begins : g.Begins q.body x := Or.inr ⟨Or.inl terminal, outer, inside.derives⟩
    have plain := terminal_ne_empty terminal
    exact ih rfl terminal rule' rfl (separated.vanishes rule' plain begins single above) above

theorem Separated.not_precedes (separated : g.Separated) (nonterminal : s ∈ g.nonterminals)
    (vanish : g.Derives [s] []) (plain : x ≠ Symbol.empty) (begins : g.Begins [s] x) :
    ¬ g.Precedes s x := by
  intro precedes
  obtain ⟨p, rule, rfl, body⟩ := (begins_name_iff nonterminal).mp begins
  have empty := separated.vanishes rule plain body vanish precedes
  rcases body with ⟨mark, _⟩ | ⟨kind, rest, derives⟩
  · exact plain mark
  · have terminal := terminal_of_declared kind
      (derives.declared (fun t inside => mem_body rule inside) x (by simp))
    have context : g.Context p.body [] x rest := Context.of_derives derives
    exact context.not_precedes separated rfl terminal rule rfl empty precedes

theorem Separated.not_next (separated : g.Separated) {read u v : List Symbol}
    (form : g.Derives [g.start] (read ++ u ++ v)) (vanish : g.Derives u [])
    (plain : x ≠ Symbol.empty) (begins : g.Begins u x) : ¬ g.Next v (· = Symbol.endMark) x := by
  intro next
  induction u generalizing read with
  | nil => exact plain (begins_nil.mp begins)
  | cons s u ih =>
    have form' : g.Derives [g.start] (read ++ s :: (u ++ v)) := by simpa using form
    rw [← List.singleton_append] at vanish begins
    obtain ⟨single, later⟩ := vanish.nil_of_append
    rcases begins.split with ⟨_, here⟩ | ⟨_, there⟩
    · have declared := form'.declared (declared_singleton g.start_mem) s (by simp)
      have nonterminal := nonterminal_of_derives_nil declared single
      have after := next_append.mpr (Or.inr ⟨later, next⟩)
      exact separated.not_precedes nonterminal single plain here (precedes_of_next form' after)
    · have onward : g.Derives [g.start] ((read ++ [s]) ++ u ++ v) := by simpa using form
      exact ih onward later there

end Grammar

namespace Table

variable {g : Grammar} {t : Table} {s x : Symbol} {row : Row}

theorem mem_tokens : x ∈ tokens row ↔ (row.lookup x).isSome := by
  rw [tokens, SymbolSet.mem_ofList, List.lookup_isSome_iff]
  simp

theorem IsOf.mem_tokens (of : t.IsOf g) (found : t.rows.lookup s = some row) :
    x ∈ tokens row ↔ g.Next [s] (g.Precedes s) x := by
  have nonterminal := of.lookup_eq_some found
  obtain ⟨row', found', cells⟩ := of.row s nonterminal
  rw [found] at found'
  cases found'
  rw [Table.mem_tokens, Option.isSome_iff_exists, ← Grammar.exists_predicts_iff nonterminal]
  exact exists_congr (cells x)

end Table

end TopDown
