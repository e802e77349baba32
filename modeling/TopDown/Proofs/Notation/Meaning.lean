import Mathlib.Algebra.Order.BigOperators.Group.List
import Mathlib.Computability.Language
import Mathlib.Order.CompletePartialOrder
import TopDown.Notation.Expr

namespace TopDown.Notation

open Computability

abbrev Reading := Origin → Language Symbol

def Atom.meaning (W : Reading) : Atom → Language Symbol
  | terminal t => {[t.name]}
  | nonterminal n => W n.origin

def sequenceMeaning (W : Reading) (atoms : List Atom) : Language Symbol :=
  (atoms.map (Atom.meaning W)).prod

def choiceMeaning (W : Reading) (alternatives : List (List Atom)) : Language Symbol :=
  (alternatives.map (sequenceMeaning W)).sum

def Rule.meaning (W : Reading) : Rule → Language Symbol
  | atom a => a.meaning W
  | choice left right => left.meaning W + right.meaning W
  | sequence first second => first.meaning W * second.meaning W
  | nothing => 1
  | shapeless => 0

def Bindings.meaning (bindings : Bindings) (W : Reading) (id : String) : Language Symbol :=
  match bindings.lookup id with
  | some rule => rule.meaning W
  | none => 0

def Combinator.meaning (items : List (Language Symbol)) : Combinator → Language Symbol
  | seq => items.prod
  | alt => items.sum
  | opt => items.prod + 1
  | star => items.prod∗
  | plus => items.prod * items.prod∗

namespace Expr

mutual

def meaning (ids : String → Language Symbol) : Expr → Language Symbol
  | name id => ids id
  | nothing => 1
  | shapeless => 0
  | either left right => left.meaning ids + right.meaning ids
  | both first second => first.meaning ids * second.meaning ids
  | apply op items => op.meaning (meaningEach ids items)

def meaningEach (ids : String → Language Symbol) : List Expr → List (Language Symbol)
  | [] => []
  | e :: rest => e.meaning ids :: meaningEach ids rest

end

end Expr

variable {W W' : Reading} {bindings : Bindings} {n n' : Naming} {rule item : Rule}
  {alternatives : List (List Atom)}

section Flatten

@[simp] theorem sequenceMeaning_append (xs ys : List Atom) :
    sequenceMeaning W (xs ++ ys) = sequenceMeaning W xs * sequenceMeaning W ys := by
  simp [sequenceMeaning]

@[simp] theorem choiceMeaning_cons (atoms : List Atom) (rest : List (List Atom)) :
    choiceMeaning W (atoms :: rest) = sequenceMeaning W atoms + choiceMeaning W rest := by
  simp [choiceMeaning]

@[simp] theorem choiceMeaning_append (ls rs : List (List Atom)) :
    choiceMeaning W (ls ++ rs) = choiceMeaning W ls + choiceMeaning W rs := by
  simp [choiceMeaning]

theorem mem_choiceMeaning {word : List Symbol} : word ∈ choiceMeaning W alternatives ↔
    ∃ atoms ∈ alternatives, word ∈ sequenceMeaning W atoms := by
  induction alternatives with
  | nil => simp [choiceMeaning]
  | cons atoms rest ih => rw [choiceMeaning_cons, Language.mem_add, ih, List.exists_mem_cons_iff]

theorem choiceMeaning_map_append (atoms : List Atom) (ss : List (List Atom)) :
    choiceMeaning W (ss.map (atoms ++ ·)) = sequenceMeaning W atoms * choiceMeaning W ss := by
  induction ss with
  | nil => exact (mul_zero _).symm
  | cons s ss ih =>
    rw [List.map_cons, choiceMeaning_cons, choiceMeaning_cons, ih, mul_add, sequenceMeaning_append]

theorem choiceMeaning_flatMap (fs ss : List (List Atom)) :
    choiceMeaning W (fs.flatMap fun f => ss.map (f ++ ·)) =
      choiceMeaning W fs * choiceMeaning W ss := by
  induction fs with
  | nil => exact (zero_mul _).symm
  | cons f fs ih =>
    rw [List.flatMap_cons, choiceMeaning_append, choiceMeaning_map_append, ih, choiceMeaning_cons,
      add_mul]

theorem Rule.of_flatten_choice {left right : Rule}
    (flat : (choice left right).flatten = .ok alternatives) :
    ∃ ls rs, left.flatten = .ok ls ∧ right.flatten = .ok rs ∧ alternatives = ls ++ rs := by
  simp only [flatten] at flat
  cases foundLeft : left.flatten with
  | error e => simp [foundLeft] at flat
  | ok ls =>
    cases foundRight : right.flatten with
    | error e => simp [foundLeft, foundRight, Except.map] at flat
    | ok rs =>
      simp only [foundLeft, foundRight, Except.map, Except.ok.injEq] at flat
      exact ⟨ls, rs, rfl, rfl, flat.symm⟩

theorem Rule.of_flatten_sequence {first second : Rule}
    (flat : (sequence first second).flatten = .ok alternatives) :
    ∃ fs ss, first.flatten = .ok fs ∧ second.flatten = .ok ss ∧
      alternatives = fs.flatMap fun f => ss.map (f ++ ·) := by
  simp only [flatten] at flat
  cases foundFirst : first.flatten with
  | error e => simp [foundFirst] at flat
  | ok fs =>
    cases foundSecond : second.flatten with
    | error e => simp [foundFirst, foundSecond, Except.map] at flat
    | ok ss =>
      simp only [foundFirst, foundSecond, Except.map, Except.ok.injEq] at flat
      exact ⟨fs, ss, rfl, rfl, flat.symm⟩

theorem Rule.choiceMeaning_flatten (W : Reading) (flat : rule.flatten = .ok alternatives) :
    choiceMeaning W alternatives = rule.meaning W := by
  induction rule generalizing alternatives with
  | atom a =>
    cases flat
    simp [choiceMeaning, sequenceMeaning, meaning]
  | choice left right ihLeft ihRight =>
    obtain ⟨ls, rs, flatLeft, flatRight, rfl⟩ := of_flatten_choice flat
    rw [choiceMeaning_append, ihLeft flatLeft, ihRight flatRight, meaning]
  | sequence first second ihFirst ihSecond =>
    obtain ⟨fs, ss, flatFirst, flatSecond, rfl⟩ := of_flatten_sequence flat
    rw [choiceMeaning_flatMap, ihFirst flatFirst, ihSecond flatSecond, meaning]
  | nothing =>
    cases flat
    simp [choiceMeaning, sequenceMeaning, meaning]
  | shapeless => cases flat

theorem Rule.meaning_sequenceOf {items : List Rule} (combined : sequenceOf items = .ok rule) :
    rule.meaning W = (items.map (meaning W)).prod := by
  cases items with
  | nil => cases combined
  | cons first rest =>
    cases combined
    induction rest generalizing first with
    | nil => simp
    | cons second rest ih =>
      rw [List.foldl_cons, ih]
      simp only [List.map_cons, List.prod_cons, meaning, mul_assoc]

theorem Rule.meaning_choiceOf {items : List Rule} (combined : choiceOf items = .ok rule) :
    rule.meaning W = (items.map (meaning W)).sum := by
  cases items with
  | nil => cases combined
  | cons first rest =>
    cases combined
    induction rest generalizing first with
    | nil => simp
    | cons second rest ih =>
      rw [List.foldl_cons, ih]
      simp only [List.map_cons, List.sum_cons, meaning, add_assoc]

theorem meaning_repeatedItem (items : List Rule) :
    (repeatedItem items).meaning W = (items.map (Rule.meaning W)).prod := by
  cases items with
  | nil => rfl
  | cons first rest => exact Rule.meaning_sequenceOf rfl

end Flatten

section Eval

theorem Combinator.value_grows (op : Combinator) (items : List Rule) (n : Naming) :
    n.repeated <+: (op.value items n).1.repeated := by
  cases op <;> simp [value, Naming.repetition]

namespace Expr

def evalPair (bindings : Bindings) (op : Rule → Rule → Rule) (left right : Expr) (n : Naming) :
    Evaluated Rule :=
  match left.eval bindings n with
  | (n, .error e) => (n, .error e)
  | (n, .ok l) =>
    match right.eval bindings n with
    | (n, r) => (n, r.map (op l ·))

theorem eval_either (left right : Expr) (n : Naming) :
    (either left right).eval bindings n = evalPair bindings .choice left right n := by
  rw [eval]
  rfl

theorem eval_both (first second : Expr) (n : Naming) :
    (both first second).eval bindings n = evalPair bindings .sequence first second n := by
  rw [eval]
  rfl

theorem evalPair_grows {op : Rule → Rule → Rule} {left right : Expr}
    (first : ∀ n : Naming, n.repeated <+: (left.eval bindings n).1.repeated)
    (second : ∀ n : Naming, n.repeated <+: (right.eval bindings n).1.repeated) (n : Naming) :
    n.repeated <+: (evalPair bindings op left right n).1.repeated := by
  have earlier := first n
  rcases evaluated : left.eval bindings n with ⟨n₁, failure | value⟩ <;> rw [evaluated] at earlier
  · simpa only [evalPair, evaluated] using earlier
  · simpa only [evalPair, evaluated] using earlier.trans (second n₁)

theorem of_evalPair {op : Rule → Rule → Rule} {left right : Expr}
    (evaluated : evalPair bindings op left right n = (n', .ok rule)) :
    ∃ n₁ l r, left.eval bindings n = (n₁, .ok l) ∧ right.eval bindings n₁ = (n', .ok r) ∧
      rule = op l r := by
  rcases first : left.eval bindings n with ⟨n₁, failure | l⟩
  · simp [evalPair, first] at evaluated
  · rcases second : right.eval bindings n₁ with ⟨n₂, failure | r⟩
    · simp [evalPair, first, second, Except.map] at evaluated
    · simp only [evalPair, first, second, Except.map, Prod.mk.injEq, Except.ok.injEq] at evaluated
      obtain ⟨rfl, rfl⟩ := evaluated
      exact ⟨n₁, l, r, rfl, second, rfl⟩

theorem of_eval_apply {op : Combinator} {items : List Expr}
    (evaluated : (apply op items).eval bindings n = (n', .ok rule)) :
    ∃ n₁ rules, evalEach bindings items n = (n₁, .ok rules) ∧ op.value rules n₁ = (n', .ok rule) := by
  rcases each : evalEach bindings items n with ⟨n₁, failure | rules⟩
  · simp [eval, each] at evaluated
  · simp only [eval, each] at evaluated
    exact ⟨n₁, rules, rfl, evaluated⟩

theorem of_evalEach_cons {e : Expr} {rest : List Expr} {rules : List Rule}
    (evaluated : evalEach bindings (e :: rest) n = (n', .ok rules)) :
    ∃ n₁ value values, e.eval bindings n = (n₁, .ok value) ∧
      evalEach bindings rest n₁ = (n', .ok values) ∧ rules = value :: values := by
  rcases first : e.eval bindings n with ⟨n₁, failure | value⟩
  · simp [evalEach, first] at evaluated
  · rcases second : evalEach bindings rest n₁ with ⟨n₂, failure | values⟩
    · simp [evalEach, first, second, Except.map] at evaluated
    · simp only [evalEach, first, second, Except.map, Prod.mk.injEq, Except.ok.injEq] at evaluated
      obtain ⟨rfl, rfl⟩ := evaluated
      exact ⟨n₁, value, values, rfl, second, rfl⟩

mutual

theorem eval_grows (bindings : Bindings) (e : Expr) (n : Naming) :
    n.repeated <+: (e.eval bindings n).1.repeated := by
  match e with
  | .name id =>
    unfold eval
    split <;> exact List.prefix_rfl
  | .nothing => exact List.prefix_rfl
  | .shapeless => exact List.prefix_rfl
  | .either left right =>
    rw [eval_either]
    exact evalPair_grows (eval_grows bindings left) (eval_grows bindings right) n
  | .both first second =>
    rw [eval_both]
    exact evalPair_grows (eval_grows bindings first) (eval_grows bindings second) n
  | .apply op items =>
    have first := evalEach_grows bindings items n
    rcases evaluated : evalEach bindings items n with ⟨n₁, failure | values⟩ <;>
      rw [evaluated] at first
    · simpa only [eval, evaluated] using first
    · simpa only [eval, evaluated] using first.trans (op.value_grows values n₁)

theorem evalEach_grows (bindings : Bindings) (items : List Expr) (n : Naming) :
    n.repeated <+: (evalEach bindings items n).1.repeated := by
  match items with
  | [] => exact List.prefix_rfl
  | e :: rest =>
    have first := eval_grows bindings e n
    rcases evaluated : e.eval bindings n with ⟨n₁, failure | value⟩ <;> rw [evaluated] at first
    · simpa only [evalEach, evaluated] using first
    · simpa only [evalEach, evaluated] using first.trans (evalEach_grows bindings rest n₁)

end

end Expr

/-- The reading takes every repetition made so far for the iteration of its item. -/
def Iterates (W : Reading) (repeated : List Rule) : Prop :=
  ∀ serial item, repeated[serial]? = some item → W (.generated serial) = (item.meaning W)∗

theorem Iterates.of_prefix {earlier later : List Rule} (iterates : Iterates W later)
    (grows : earlier <+: later) : Iterates W earlier := by
  intro serial item found
  obtain ⟨more, rfl⟩ := grows
  obtain ⟨bound, _⟩ := List.getElem?_eq_some_iff.mp found
  apply iterates serial item
  rw [List.getElem?_append_left bound, found]

theorem Naming.meaning_repetition (n : Naming) (item : Rule)
    (iterates : Iterates W (n.repetition item).1.repeated) :
    (n.repetition item).2.meaning W = (item.meaning W)∗ := by
  apply iterates n.repeated.length item
  simp [Naming.repetition]

theorem Combinator.meaning_value {op : Combinator} {items : List Rule}
    (combined : op.value items n = (n', .ok rule)) (iterates : Iterates W n'.repeated) :
    rule.meaning W = op.meaning (items.map (Rule.meaning W)) := by
  cases op with
  | seq =>
    obtain ⟨_, found⟩ := Prod.mk.inj combined
    exact Rule.meaning_sequenceOf found
  | alt =>
    obtain ⟨_, found⟩ := Prod.mk.inj combined
    exact Rule.meaning_choiceOf found
  | opt =>
    obtain ⟨_, found⟩ := Prod.mk.inj combined
    cases whole : Rule.sequenceOf items with
    | error e => simp [whole, Except.map] at found
    | ok item =>
      rw [whole] at found
      cases found
      rw [Rule.meaning, Rule.meaning, Rule.meaning_sequenceOf whole, meaning]
  | star =>
    obtain ⟨rfl, found⟩ := Prod.mk.inj combined
    cases found
    have tail := n.meaning_repetition (repeatedItem items) iterates
    rw [meaning_repeatedItem] at tail
    exact tail
  | plus =>
    obtain ⟨rfl, found⟩ := Prod.mk.inj combined
    have tail := n.meaning_repetition (repeatedItem items) iterates
    rw [meaning_repeatedItem] at tail
    rw [Rule.meaning_sequenceOf found, List.map_append, List.prod_append]
    exact congrArg _ ((List.prod_singleton ..).trans tail)

namespace Expr

mutual

/-- Evaluation keeps the meaning. The repetitions that it makes are iterations for a reading that
takes them for iterations. -/
theorem eval_meaning {e : Expr} {n n' : Naming} {rule : Rule}
    (evaluated : e.eval bindings n = (n', .ok rule)) (iterates : Iterates W n'.repeated) :
    rule.meaning W = e.meaning (bindings.meaning W) := by
  match e with
  | .name id =>
    cases found : bindings.lookup id with
    | none => simp [eval, found] at evaluated
    | some bound =>
      simp only [eval, found, Prod.mk.injEq, Except.ok.injEq] at evaluated
      rw [meaning, Bindings.meaning, found, ← evaluated.2]
  | .nothing =>
    cases evaluated
    rw [Rule.meaning, meaning]
  | .shapeless =>
    cases evaluated
    rw [Rule.meaning, meaning]
  | .either left right =>
    rw [eval_either] at evaluated
    obtain ⟨n₁, l, r, first, second, rfl⟩ := of_evalPair evaluated
    have grows := eval_grows bindings right n₁
    rw [second] at grows
    rw [Rule.meaning, meaning, eval_meaning first (iterates.of_prefix grows),
      eval_meaning second iterates]
  | .both left right =>
    rw [eval_both] at evaluated
    obtain ⟨n₁, l, r, first, second, rfl⟩ := of_evalPair evaluated
    have grows := eval_grows bindings right n₁
    rw [second] at grows
    rw [Rule.meaning, meaning, eval_meaning first (iterates.of_prefix grows),
      eval_meaning second iterates]
  | .apply op items =>
    obtain ⟨n₁, rules, each, combined⟩ := of_eval_apply evaluated
    have grows := op.value_grows rules n₁
    rw [combined] at grows
    rw [Combinator.meaning_value combined iterates, meaning,
      evalEach_meaning each (iterates.of_prefix grows)]

theorem evalEach_meaning {items : List Expr} {n n' : Naming} {rules : List Rule}
    (evaluated : evalEach bindings items n = (n', .ok rules)) (iterates : Iterates W n'.repeated) :
    rules.map (Rule.meaning W) = meaningEach (bindings.meaning W) items := by
  match items with
  | [] =>
    cases evaluated
    rfl
  | e :: rest =>
    obtain ⟨n₁, value, values, first, second, rfl⟩ := of_evalEach_cons evaluated
    have grows := evalEach_grows bindings rest n₁
    rw [second] at grows
    rw [List.map_cons, meaningEach, eval_meaning first (iterates.of_prefix grows),
      evalEach_meaning second iterates]

end

end Expr

end Eval

section Monotone

theorem Atom.meaning_mono (below : W ≤ W') (a : Atom) : a.meaning W ≤ a.meaning W' := by
  cases a with
  | terminal t => exact le_rfl
  | nonterminal n => exact below n.origin

theorem Rule.meaning_mono (below : W ≤ W') (r : Rule) : r.meaning W ≤ r.meaning W' := by
  induction r with
  | atom a => exact a.meaning_mono below
  | choice left right ihLeft ihRight => exact add_le_add ihLeft ihRight
  | sequence first second ihFirst ihSecond => exact mul_le_mul' ihFirst ihSecond
  | nothing => exact le_rfl
  | shapeless => exact le_rfl

theorem Bindings.meaning_mono (below : W ≤ W') (id : String) :
    bindings.meaning W id ≤ bindings.meaning W' id := by
  unfold Bindings.meaning
  split
  · exact Rule.meaning_mono below _
  · exact le_rfl

theorem Combinator.meaning_mono (op : Combinator) {xs ys : List (Language Symbol)}
    (below : List.Forall₂ (· ≤ ·) xs ys) : op.meaning xs ≤ op.meaning ys := by
  cases op with
  | seq => exact below.prod_le_prod'
  | alt => exact below.sum_le_sum
  | opt => exact add_le_add below.prod_le_prod' le_rfl
  | star => exact kstar_mono below.prod_le_prod'
  | plus => exact mul_le_mul' below.prod_le_prod' (kstar_mono below.prod_le_prod')

namespace Expr

variable {ids ids' : String → Language Symbol}

mutual

theorem meaning_mono (below : ids ≤ ids') (e : Expr) : e.meaning ids ≤ e.meaning ids' := by
  match e with
  | .name id => exact below id
  | .nothing => exact le_rfl
  | .shapeless => exact le_rfl
  | .either left right => exact add_le_add (meaning_mono below left) (meaning_mono below right)
  | .both first second => exact mul_le_mul' (meaning_mono below first) (meaning_mono below second)
  | .apply op items => exact op.meaning_mono (meaningEach_mono below items)

theorem meaningEach_mono (below : ids ≤ ids') (items : List Expr) :
    List.Forall₂ (· ≤ ·) (meaningEach ids items) (meaningEach ids' items) := by
  match items with
  | [] => exact .nil
  | e :: rest => exact .cons (meaning_mono below e) (meaningEach_mono below rest)

end

end Expr

end Monotone

end TopDown.Notation
