import TopDown.Proofs.Notation.Bodies

namespace TopDown.Notation

section Failure

variable {bindings : Bindings} {rule : Rule} {failure : RuleError}

def RuleError.InRule : RuleError → Prop
  | unknownName _ => True
  | noItems => True
  | shapeless => True
  | noBody => True
  | clash _ => False
  | grammar _ => False
  | unsettled => False

theorem Rule.inRule_of_flatten (failed : rule.flatten = .error failure) : failure.InRule := by
  induction rule with
  | atom a => cases failed
  | choice left right ihLeft ihRight =>
    simp only [flatten] at failed
    split at failed
    · rename_i first
      cases failed
      exact ihLeft first
    · cases second : right.flatten <;> rw [second] at failed <;> cases failed
      exact ihRight second
  | sequence left right ihLeft ihRight =>
    simp only [flatten] at failed
    split at failed
    · rename_i first
      cases failed
      exact ihLeft first
    · cases second : right.flatten <;> rw [second] at failed <;> cases failed
      exact ihRight second
  | nothing => cases failed
  | shapeless =>
    cases failed
    trivial

theorem Combinator.inRule_of_value {op : Combinator} {items : List Rule} {n : Naming}
    (failed : (op.value items n).2 = .error failure) : failure.InRule := by
  have combined : ∀ {op : Rule → Rule → Rule} {items : List Rule},
      Rule.combine op items = .error failure → failure.InRule := by
    intro op items failed
    cases items with
    | nil =>
      cases failed
      trivial
    | cons first rest => cases failed
  cases op with
  | seq => exact combined failed
  | alt => exact combined failed
  | opt =>
    simp only [value] at failed
    cases whole : Rule.sequenceOf items with
    | error e =>
      rw [whole] at failed
      cases failed
      exact combined whole
    | ok item =>
      rw [whole] at failed
      cases failed
  | star => cases failed
  | plus => exact combined failed

namespace Expr

theorem inRule_of_evalPair {op : Rule → Rule → Rule} {left right : Expr} {n : Naming}
    (first : (left.eval bindings n).2 = .error failure → failure.InRule)
    (second : ∀ n : Naming, (right.eval bindings n).2 = .error failure → failure.InRule)
    (failed : (evalPair bindings op left right n).2 = .error failure) : failure.InRule := by
  rcases evaluated : left.eval bindings n with ⟨n₁, e | l⟩
  · simp only [evalPair, evaluated] at failed
    cases failed
    exact first (by rw [evaluated])
  · rcases evaluated' : right.eval bindings n₁ with ⟨n₂, e | r⟩
    · simp only [evalPair, evaluated, evaluated', Except.map] at failed
      cases failed
      exact second n₁ (by rw [evaluated'])
    · simp [evalPair, evaluated, evaluated', Except.map] at failed

mutual

theorem inRule_of_eval {e : Expr} {n : Naming} (failed : (e.eval bindings n).2 = .error failure) :
    failure.InRule := by
  match e with
  | .name id =>
    unfold eval at failed
    split at failed
    · cases failed
    · cases failed
      trivial
  | .nothing => cases failed
  | .shapeless => cases failed
  | .either left right =>
    rw [eval_either] at failed
    exact inRule_of_evalPair inRule_of_eval (fun _ => inRule_of_eval) failed
  | .both left right =>
    rw [eval_both] at failed
    exact inRule_of_evalPair inRule_of_eval (fun _ => inRule_of_eval) failed
  | .apply op items =>
    rcases each : evalEach bindings items n with ⟨n₁, e | rules⟩
    · simp only [eval, each] at failed
      cases failed
      exact inRule_of_evalEach (by rw [each])
    · simp only [eval, each] at failed
      exact Combinator.inRule_of_value failed

theorem inRule_of_evalEach {items : List Expr} {n : Naming}
    (failed : (evalEach bindings items n).2 = .error failure) : failure.InRule := by
  match items with
  | [] => cases failed
  | e :: rest =>
    rcases first : e.eval bindings n with ⟨n₁, e' | value⟩
    · simp only [evalEach, first] at failed
      cases failed
      exact inRule_of_eval (by rw [first])
    · rcases second : evalEach bindings rest n₁ with ⟨n₂, e' | values⟩
      · simp only [evalEach, first, second, Except.map] at failed
        cases failed
        exact inRule_of_evalEach (by rw [second])
      · simp [evalEach, first, second, Except.map] at failed

end

end Expr

theorem Rulebook.inRule_of_body {b : Rulebook} {n : Nonterminal}
    (failed : (b.body n).2 = .error failure) : failure.InRule := by
  unfold body at failed
  split at failed
  · cases failed
  · split at failed
    · rename_i evaluated
      cases failed
      unfold source at evaluated
      split at evaluated
      · split at evaluated
        · exact Expr.inRule_of_eval (congrArg Prod.snd evaluated)
        · cases evaluated
          trivial
      · split at evaluated
        · cases evaluated
        · cases evaluated
          trivial
    · split at failed
      · rename_i flat
        cases failed
        exact Rule.inRule_of_flatten flat
      · cases failed

theorem Rulebook.inRule_of_visit {b : Rulebook} {bound : Nat} {pending : List Nonterminal}
    {g : Gathered} (failed : (b.visit bound pending g).2 = .error failure) :
    failure = .unsettled ∨ failure.InRule := by
  have ended : Ends (fun _ _ _ => True) (g.rules.length + bound) (b.visit bound pending g) :=
    visit_ends (fun _ _ _ _ _ _ _ _ _ => trivial) bound trivial
  generalize b.visit bound pending g = result at ended failed
  cases ended with
  | settled _ _ => cases failed
  | unsettled _ _ =>
    cases failed
    exact Or.inl rfl
  | failed _ _ asked =>
    cases failed
    exact Or.inr (inRule_of_body asked)

end Failure

section Sound

variable {bindings : Bindings} {rule : Rule} {items : List Rule} {n : Naming}

def Rule.shaped : Rule → Bool
  | atom _ => true
  | choice left right => left.shaped && right.shaped
  | sequence first second => first.shaped && second.shaped
  | nothing => true
  | shapeless => false

def Combinator.takesNothing : Combinator → Bool
  | seq => false
  | alt => false
  | opt => false
  | star => true
  | plus => true

namespace Expr

mutual

/-- What it names is bound, it combines nothing with nothing, and it has a shape. -/
def sound (bound : String → Bool) : Expr → Bool
  | name id => bound id
  | nothing => true
  | shapeless => false
  | either left right => left.sound bound && right.sound bound
  | both first second => first.sound bound && second.sound bound
  | apply op items => (op.takesNothing || !items.isEmpty) && soundEach bound items

def soundEach (bound : String → Bool) : List Expr → Bool
  | [] => true
  | e :: rest => e.sound bound && soundEach bound rest

end

end Expr

theorem Rule.flatten_of_shaped (shaped : rule.shaped = true) :
    ∃ alternatives, rule.flatten = .ok alternatives := by
  induction rule with
  | atom a => exact ⟨_, rfl⟩
  | choice left right ihLeft ihRight =>
    rw [Rule.shaped, Bool.and_eq_true] at shaped
    obtain ⟨ls, first⟩ := ihLeft shaped.1
    obtain ⟨rs, second⟩ := ihRight shaped.2
    exact ⟨_, by simp only [flatten, first, second]; rfl⟩
  | sequence left right ihLeft ihRight =>
    rw [Rule.shaped, Bool.and_eq_true] at shaped
    obtain ⟨ls, first⟩ := ihLeft shaped.1
    obtain ⟨rs, second⟩ := ihRight shaped.2
    exact ⟨_, by simp only [flatten, first, second]; rfl⟩
  | nothing => exact ⟨_, rfl⟩
  | shapeless => cases shaped

theorem Rule.exists_combine {op : Rule → Rule → Rule}
    (parts : ∀ left right, (op left right).shaped = (left.shaped && right.shaped))
    (some : items ≠ []) (shaped : ∀ item ∈ items, item.shaped = true) :
    ∃ rule, combine op items = .ok rule ∧ rule.shaped = true := by
  cases items with
  | nil => exact absurd rfl some
  | cons first rest =>
    refine ⟨_, rfl, ?_⟩
    induction rest generalizing first with
    | nil => exact shaped first List.mem_cons_self
    | cons second rest ih =>
      refine ih (op first second) (List.cons_ne_nil _ _) fun item member => ?_
      rcases List.mem_cons.mp member with rfl | member
      · rw [parts, shaped first (by simp), shaped second (by simp)]
        rfl
      · exact shaped item (by simp [member])

theorem Rule.shaped_sequenceOf (some : items ≠ []) (shaped : ∀ item ∈ items, item.shaped = true) :
    ∃ rule, sequenceOf items = .ok rule ∧ rule.shaped = true :=
  exists_combine (fun _ _ => rfl) some shaped

theorem Rule.shaped_choiceOf (some : items ≠ []) (shaped : ∀ item ∈ items, item.shaped = true) :
    ∃ rule, choiceOf items = .ok rule ∧ rule.shaped = true :=
  exists_combine (fun _ _ => rfl) some shaped

theorem shaped_repeatedItem (shaped : ∀ item ∈ items, item.shaped = true) :
    (repeatedItem items).shaped = true := by
  cases items with
  | nil => rfl
  | cons first rest =>
    obtain ⟨rule, combined, whole⟩ := Rule.shaped_sequenceOf (List.cons_ne_nil first rest) shaped
    simpa only [repeatedItem, combined] using whole

def Naming.Shaped (n : Naming) : Prop := ∀ item ∈ n.repeated, item.shaped = true

theorem Naming.Shaped.repetition (shaped : n.Shaped) (each : ∀ item ∈ items, item.shaped = true) :
    (n.repetition (repeatedItem items)).1.Shaped := by
  intro item member
  rcases List.mem_append.mp member with before | new
  · exact shaped item before
  · rw [List.mem_singleton.mp new]
    exact shaped_repeatedItem each

theorem Combinator.exists_value (op : Combinator) (some : op.takesNothing = true ∨ items ≠ [])
    (each : ∀ item ∈ items, item.shaped = true) (shaped : n.Shaped) :
    ∃ n' rule, op.value items n = (n', .ok rule) ∧ rule.shaped = true ∧ n'.Shaped := by
  cases op with
  | seq =>
    obtain ⟨rule, combined, whole⟩ := Rule.shaped_sequenceOf (some.resolve_left nofun) each
    exact ⟨n, rule, congrArg (Prod.mk n) combined, whole, shaped⟩
  | alt =>
    obtain ⟨rule, combined, whole⟩ := Rule.shaped_choiceOf (some.resolve_left nofun) each
    exact ⟨n, rule, congrArg (Prod.mk n) combined, whole, shaped⟩
  | opt =>
    obtain ⟨rule, combined, whole⟩ := Rule.shaped_sequenceOf (some.resolve_left nofun) each
    refine ⟨n, .choice rule .nothing, ?_, by rw [Rule.shaped, whole]; rfl, shaped⟩
    simp only [value, combined, Except.map]
  | star => exact ⟨_, _, rfl, rfl, shaped.repetition each⟩
  | plus =>
    have all : ∀ item ∈ items ++ [(n.repetition (repeatedItem items)).2], item.shaped = true := by
      intro item member
      rcases List.mem_append.mp member with before | tail
      · exact each item before
      · rw [List.mem_singleton.mp tail]
        rfl
    obtain ⟨rule, combined, whole⟩ := Rule.shaped_sequenceOf (by simp) all
    exact ⟨_, rule, congrArg (Prod.mk _) combined, whole, shaped.repetition each⟩

def Bindings.Shaped (bindings : Bindings) : Prop :=
  ∀ id value, bindings.lookup id = some value → value.shaped = true

namespace Expr

theorem exists_evalPair {op : Rule → Rule → Rule} {left right : Expr}
    (parts : ∀ l r, (op l r).shaped = (l.shaped && r.shaped))
    (first : ∀ {n : Naming}, n.Shaped → ∃ n' rule, left.eval bindings n = (n', .ok rule) ∧
      rule.shaped = true ∧ n'.Shaped)
    (second : ∀ {n : Naming}, n.Shaped → ∃ n' rule, right.eval bindings n = (n', .ok rule) ∧
      rule.shaped = true ∧ n'.Shaped) (shaped : n.Shaped) :
    ∃ n' rule, evalPair bindings op left right n = (n', .ok rule) ∧ rule.shaped = true ∧
      n'.Shaped := by
  obtain ⟨n₁, l, evaluated, whole, shaped₁⟩ := first shaped
  obtain ⟨n₂, r, evaluated', whole', shaped₂⟩ := second shaped₁
  refine ⟨n₂, op l r, ?_, by rw [parts, whole, whole']; rfl, shaped₂⟩
  simp only [evalPair, evaluated, evaluated', Except.map]

mutual

theorem exists_eval {e : Expr} {n : Naming} (values : bindings.Shaped)
    (sound : e.sound (fun id => (bindings.lookup id).isSome) = true) (shaped : n.Shaped) :
    ∃ n' rule, e.eval bindings n = (n', .ok rule) ∧ rule.shaped = true ∧ n'.Shaped := by
  match e with
  | .name id =>
    obtain ⟨value, held⟩ := Option.isSome_iff_exists.mp sound
    exact ⟨n, value, by simp only [eval, held], values id value held, shaped⟩
  | .nothing => exact ⟨n, _, rfl, rfl, shaped⟩
  | .shapeless => cases sound
  | .either left right =>
    rw [Expr.sound, Bool.and_eq_true] at sound
    rw [eval_either]
    exact exists_evalPair (fun _ _ => rfl) (exists_eval values sound.1) (exists_eval values sound.2)
      shaped
  | .both left right =>
    rw [Expr.sound, Bool.and_eq_true] at sound
    rw [eval_both]
    exact exists_evalPair (fun _ _ => rfl) (exists_eval values sound.1) (exists_eval values sound.2)
      shaped
  | .apply op items =>
    rw [Expr.sound, Bool.and_eq_true] at sound
    obtain ⟨n₁, rules, evaluated, length, each, shaped₁⟩ := exists_evalEach values sound.2 shaped
    -- There are as many values as items, so a combination that needs some has some.
    have some : op.takesNothing = true ∨ rules ≠ [] := by
      rw [Bool.or_eq_true] at sound
      refine sound.1.imp id fun nonempty none => ?_
      rw [none, List.length_nil, eq_comm, List.length_eq_zero_iff] at length
      simp [length] at nonempty
    obtain ⟨n₂, rule, combined, whole, shaped₂⟩ := op.exists_value some each shaped₁
    exact ⟨n₂, rule, by simp only [eval, evaluated, combined], whole, shaped₂⟩

theorem exists_evalEach {items : List Expr} {n : Naming} (values : bindings.Shaped)
    (sound : soundEach (fun id => (bindings.lookup id).isSome) items = true) (shaped : n.Shaped) :
    ∃ n' rules, evalEach bindings items n = (n', .ok rules) ∧ rules.length = items.length ∧
      (∀ rule ∈ rules, rule.shaped = true) ∧ n'.Shaped := by
  match items with
  | [] => exact ⟨n, [], rfl, rfl, by simp, shaped⟩
  | e :: rest =>
    rw [soundEach, Bool.and_eq_true] at sound
    obtain ⟨n₁, rule, evaluated, whole, shaped₁⟩ := exists_eval values sound.1 shaped
    obtain ⟨n₂, rules, evaluated', length, each, shaped₂⟩ := exists_evalEach values sound.2 shaped₁
    refine ⟨n₂, rule :: rules, ?_, by simp [length], ?_, shaped₂⟩
    · simp only [evalEach, evaluated, evaluated', Except.map]
    · simpa using ⟨whole, each⟩

end

end Expr

end Sound

end TopDown.Notation
