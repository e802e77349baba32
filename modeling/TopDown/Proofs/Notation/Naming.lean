import TopDown.Proofs.Notation.Meaning
import TopDown.Proofs.Text.Reading

namespace TopDown.Notation

variable {bindings : Bindings} {n n₁ n' : Naming} {rule : Rule} {alternatives : List (List Atom)}
  {a : Atom} {P : Atom → Prop}

section Names

theorem not_mem_toList_toString (i : Nat) : '_' ∉ (toString i).toList := by
  intro member
  exact absurd (Text.isDigit_of_mem_toString member) (by decide)

/-- The number follows the last separator, whatever the rule is called. -/
theorem repetitionName_injective : Function.Injective repetitionName := by
  intro s t same
  have chars := congrArg String.toList same
  simp only [repetitionName, String.toList_append, List.append_assoc] at chars
  have tails := List.append_cancel_left chars
  obtain ⟨rule, next⟩ := Text.eq_of_append_mark (not_mem_toList_toString s.next)
    (not_mem_toList_toString t.next) tails
  have numbers := Text.eq_of_digits next
  obtain ⟨_, _⟩ := s
  obtain ⟨_, _⟩ := t
  rw [Scope.mk.injEq]
  exact ⟨String.toList_inj.mp rule, numbers⟩

theorem startsWith_repetitionName (s : Scope) : Symbol.startsWith "__" (repetitionName s) = true := by
  simp [Symbol.startsWith, repetitionName, String.toList_append]

end Names

section Atoms

def Rule.atoms : Rule → List Atom
  | atom a => [a]
  | choice left right => left.atoms ++ right.atoms
  | sequence first second => first.atoms ++ second.atoms
  | nothing => []
  | shapeless => []

theorem Rule.flatten_ne_nil (flat : rule.flatten = .ok alternatives) : alternatives ≠ [] := by
  induction rule generalizing alternatives with
  | atom a => cases flat; simp
  | choice left right ihLeft _ =>
    obtain ⟨ls, rs, flatLeft, _, rfl⟩ := of_flatten_choice flat
    simp [ihLeft flatLeft]
  | sequence first second ihFirst ihSecond =>
    obtain ⟨fs, ss, flatFirst, flatSecond, rfl⟩ := of_flatten_sequence flat
    obtain ⟨f, _, rfl⟩ := List.exists_cons_of_ne_nil (ihFirst flatFirst)
    simp [ihSecond flatSecond]
  | nothing => cases flat; simp
  | shapeless => cases flat

theorem Rule.mem_atoms_of_flatten (flat : rule.flatten = .ok alternatives)
    {side : List Atom} (alternative : side ∈ alternatives) (inside : a ∈ side) : a ∈ rule.atoms := by
  induction rule generalizing alternatives side with
  | atom b =>
    cases flat
    rwa [List.mem_singleton.mp alternative] at inside
  | choice left right ihLeft ihRight =>
    obtain ⟨ls, rs, flatLeft, flatRight, rfl⟩ := of_flatten_choice flat
    rcases List.mem_append.mp alternative with held | held
    · exact List.mem_append_left _ (ihLeft flatLeft held inside)
    · exact List.mem_append_right _ (ihRight flatRight held inside)
  | sequence first second ihFirst ihSecond =>
    obtain ⟨fs, ss, flatFirst, flatSecond, rfl⟩ := of_flatten_sequence flat
    obtain ⟨f, here, later⟩ := List.mem_flatMap.mp alternative
    obtain ⟨s, there, rfl⟩ := List.mem_map.mp later
    rcases List.mem_append.mp inside with before | after
    · exact List.mem_append_left _ (ihFirst flatFirst here before)
    · exact List.mem_append_right _ (ihSecond flatSecond there after)
  | nothing =>
    cases flat
    rwa [List.mem_singleton.mp alternative] at inside
  | shapeless => cases flat

theorem Rule.mem_atoms_of_combine {op : Rule → Rule → Rule}
    (parts : ∀ left right, (op left right).atoms = left.atoms ++ right.atoms) {items : List Rule}
    (combined : combine op items = .ok rule) (inside : a ∈ rule.atoms) :
    ∃ item ∈ items, a ∈ item.atoms := by
  cases items with
  | nil => cases combined
  | cons first rest =>
    cases combined
    induction rest generalizing first with
    | nil => exact ⟨first, List.mem_singleton_self first, inside⟩
    | cons second rest ih =>
      obtain ⟨item, member, held⟩ := ih (op first second) inside
      rcases List.mem_cons.mp member with rfl | member
      · rw [parts, List.mem_append] at held
        rcases held with held | held
        · exact ⟨first, by simp, held⟩
        · exact ⟨second, by simp, held⟩
      · exact ⟨item, by simp [member], held⟩

theorem mem_atoms_repeatedItem {items : List Rule} (inside : a ∈ (repeatedItem items).atoms) :
    ∃ item ∈ items, a ∈ item.atoms := by
  cases items with
  | nil => cases inside
  | cons first rest => exact Rule.mem_atoms_of_combine (fun _ _ => rfl) rfl inside

end Atoms

section Made

def Naming.fresh (n : Naming) : Nonterminal := ⟨.generated n.repeated.length, repetitionName n.scope⟩

def Combinator.made (n : Naming) : Combinator → List Nonterminal
  | seq => []
  | alt => []
  | opt => []
  | star => [n.fresh]
  | plus => [n.fresh]

/-- What is made in a second step, which there is only if the first one does not fail. -/
def madeAfter {α : Type} (first : Evaluated α) (second : Naming → List Nonterminal) :
    List Nonterminal :=
  match first with
  | (_, .error _) => []
  | (n, .ok _) => second n

namespace Expr

mutual

def made (bindings : Bindings) : Expr → Naming → List Nonterminal
  | name _, _ => []
  | nothing, _ => []
  | shapeless, _ => []
  | either left right, n =>
    left.made bindings n ++ madeAfter (left.eval bindings n) (right.made bindings)
  | both first second, n =>
    first.made bindings n ++ madeAfter (first.eval bindings n) (second.made bindings)
  | apply op items, n =>
    madeEach bindings items n ++ madeAfter (evalEach bindings items n) fun n => op.made n

def madeEach (bindings : Bindings) : List Expr → Naming → List Nonterminal
  | [], _ => []
  | e :: rest, n => e.made bindings n ++ madeAfter (e.eval bindings n) (madeEach bindings rest)

end

end Expr

def Naming.upcoming (n : Naming) (count : Nat) : List Nonterminal :=
  (List.range count).map fun i =>
    ⟨.generated (n.repeated.length + i), repetitionName ⟨n.scope.rule, n.scope.next + i⟩⟩

/-- The scope is that of before, and the nonterminals are those that come next in it. -/
structure Naming.Makes (n n' : Naming) (made : List Nonterminal) : Prop where
  scope_eq : n'.scope = ⟨n.scope.rule, n.scope.next + made.length⟩
  length_eq : n'.repeated.length = n.repeated.length + made.length
  made_eq : made = n.upcoming made.length

namespace Naming.Makes

variable {xs ys : List Nonterminal}

theorem refl (n : Naming) : n.Makes n [] := ⟨rfl, rfl, rfl⟩

theorem trans (first : n.Makes n₁ xs) (second : n₁.Makes n' ys) : n.Makes n' (xs ++ ys) := by
  constructor
  · rw [second.scope_eq, first.scope_eq, List.length_append, Nat.add_assoc]
  · rw [second.length_eq, first.length_eq, List.length_append, Nat.add_assoc]
  · have later : n₁.upcoming ys.length = (List.range ys.length).map fun i =>
        ⟨.generated (n.repeated.length + (xs.length + i)),
          repetitionName ⟨n.scope.rule, n.scope.next + (xs.length + i)⟩⟩ := by
      simp only [upcoming, first.scope_eq, first.length_eq, Nat.add_assoc]
    rw [List.length_append, upcoming, List.range_add, List.map_append, List.map_map]
    exact congrArg₂ _ first.made_eq (second.made_eq.trans later)

theorem repetition (n : Naming) (item : Rule) : n.Makes (n.repetition item).1 [n.fresh] :=
  ⟨rfl, by simp [Naming.repetition], rfl⟩

theorem combinator (op : Combinator) (items : List Rule) (n : Naming) :
    n.Makes (op.value items n).1 (op.made n) := by
  cases op with
  | seq => exact refl n
  | alt => exact refl n
  | opt => exact refl n
  | star => exact repetition n (repeatedItem items)
  | plus => exact repetition n (repeatedItem items)

theorem pair {op : Rule → Rule → Rule} {left right : Expr}
    (first : n.Makes (left.eval bindings n).1 (left.made bindings n))
    (second : ∀ n : Naming, n.Makes (right.eval bindings n).1 (right.made bindings n)) :
    n.Makes (Expr.evalPair bindings op left right n).1
      (left.made bindings n ++ madeAfter (left.eval bindings n) (right.made bindings)) := by
  rcases evaluated : left.eval bindings n with ⟨n₁, failure | value⟩ <;> rw [evaluated] at first
  · simpa only [Expr.evalPair, evaluated, madeAfter, List.append_nil] using first
  · simpa only [Expr.evalPair, evaluated, madeAfter] using first.trans (second n₁)

end Naming.Makes

theorem Combinator.length_made_le (op : Combinator) (n : Naming) : (op.made n).length ≤ 1 := by
  cases op <;> simp [made]

theorem length_madeAfter_le {α : Type} {second : Naming → List Nonterminal} {count : Nat}
    (first : Evaluated α) (bounded : ∀ n, (second n).length ≤ count) :
    (madeAfter first second).length ≤ count := by
  unfold madeAfter
  split
  · exact Nat.zero_le _
  · exact bounded _

namespace Expr

mutual

theorem eval_makes (bindings : Bindings) (e : Expr) (n : Naming) :
    n.Makes (e.eval bindings n).1 (e.made bindings n) := by
  match e with
  | .name id =>
    unfold eval
    split <;> exact .refl n
  | .nothing => exact .refl n
  | .shapeless => exact .refl n
  | .either left right =>
    rw [eval_either]
    exact .pair (eval_makes bindings left n) (eval_makes bindings right)
  | .both first second =>
    rw [eval_both]
    exact .pair (eval_makes bindings first n) (eval_makes bindings second)
  | .apply op items =>
    have first := evalEach_makes bindings items n
    rcases evaluated : evalEach bindings items n with ⟨n₁, failure | values⟩ <;>
      rw [evaluated] at first
    · simpa only [eval, made, evaluated, madeAfter, List.append_nil] using first
    · simpa only [eval, made, evaluated, madeAfter] using
        first.trans (.combinator op values n₁)

theorem evalEach_makes (bindings : Bindings) (items : List Expr) (n : Naming) :
    n.Makes (evalEach bindings items n).1 (madeEach bindings items n) := by
  match items with
  | [] => exact .refl n
  | e :: rest =>
    have first := eval_makes bindings e n
    rcases evaluated : e.eval bindings n with ⟨n₁, failure | value⟩ <;> rw [evaluated] at first
    · simpa only [evalEach, madeEach, evaluated, madeAfter, List.append_nil] using first
    · simpa only [evalEach, madeEach, evaluated, madeAfter] using
        first.trans (evalEach_makes bindings rest n₁)

end

mutual

theorem length_made_le (bindings : Bindings) (e : Expr) (n : Naming) :
    (e.made bindings n).length ≤ e.repetitions := by
  match e with
  | .name _ => exact Nat.zero_le _
  | .nothing => exact Nat.zero_le _
  | .shapeless => exact Nat.zero_le _
  | .either left right =>
    rw [made, repetitions, List.length_append]
    exact Nat.add_le_add (length_made_le bindings left n)
      (length_madeAfter_le _ (length_made_le bindings right))
  | .both first second =>
    rw [made, repetitions, List.length_append]
    exact Nat.add_le_add (length_made_le bindings first n)
      (length_madeAfter_le _ (length_made_le bindings second))
  | .apply op items =>
    rw [made, repetitions, List.length_append]
    exact Nat.add_le_add (length_madeEach_le bindings items n)
      (length_madeAfter_le _ fun n => op.length_made_le n)

theorem length_madeEach_le (bindings : Bindings) (items : List Expr) (n : Naming) :
    (madeEach bindings items n).length ≤ repetitionsEach items := by
  match items with
  | [] => exact Nat.zero_le _
  | e :: rest =>
    rw [madeEach, repetitionsEach, List.length_append]
    exact Nat.add_le_add (length_made_le bindings e n)
      (length_madeAfter_le _ (length_madeEach_le bindings rest))

end

end Expr

end Made

section Content

def Bindings.Hold (bindings : Bindings) (P : Atom → Prop) : Prop :=
  ∀ id value, bindings.lookup id = some value → ∀ a ∈ value.atoms, P a

def Naming.Adds (P : Atom → Prop) (n n' : Naming) : Prop :=
  ∃ items, n'.repeated = n.repeated ++ items ∧ ∀ item ∈ items, ∀ a ∈ item.atoms, P a

namespace Naming.Adds

theorem refl (n : Naming) : n.Adds P n := ⟨[], by simp, by simp⟩

theorem trans (first : n.Adds P n₁) (second : n₁.Adds P n') : n.Adds P n' := by
  obtain ⟨xs, grown, held⟩ := first
  obtain ⟨ys, grown', held'⟩ := second
  refine ⟨xs ++ ys, by rw [grown', grown, List.append_assoc], fun item member => ?_⟩
  rcases List.mem_append.mp member with before | after
  · exact held item before
  · exact held' item after

theorem combinator (op : Combinator) {items : List Rule}
    (held : ∀ item ∈ items, ∀ a ∈ item.atoms, P a) (n : Naming) :
    n.Adds P (op.value items n).1 := by
  have repetition : n.Adds P (n.repetition (repeatedItem items)).1 := by
    refine ⟨[repeatedItem items], rfl, fun item single a inside => ?_⟩
    rw [List.mem_singleton.mp single] at inside
    obtain ⟨item, member, there⟩ := mem_atoms_repeatedItem inside
    exact held item member a there
  cases op with
  | seq => exact refl n
  | alt => exact refl n
  | opt => exact refl n
  | star => exact repetition
  | plus => exact repetition

end Naming.Adds

theorem Combinator.atoms_value {op : Combinator} {items : List Rule}
    (combined : op.value items n = (n', .ok rule)) (held : ∀ item ∈ items, ∀ a ∈ item.atoms, P a)
    (made : ∀ m ∈ op.made n, P (.nonterminal m)) : ∀ a ∈ rule.atoms, P a := by
  intro a inside
  cases op with
  | seq =>
    obtain ⟨item, member, there⟩ :=
      Rule.mem_atoms_of_combine (fun _ _ => rfl) (Prod.mk.inj combined).2 inside
    exact held item member a there
  | alt =>
    obtain ⟨item, member, there⟩ :=
      Rule.mem_atoms_of_combine (fun _ _ => rfl) (Prod.mk.inj combined).2 inside
    exact held item member a there
  | opt =>
    obtain ⟨_, found⟩ := Prod.mk.inj combined
    cases whole : Rule.sequenceOf items with
    | error e => simp [whole, Except.map] at found
    | ok part =>
      rw [whole] at found
      cases found
      have there : a ∈ part.atoms := by simpa [Rule.atoms] using inside
      obtain ⟨item, member, there⟩ := Rule.mem_atoms_of_combine (fun _ _ => rfl) whole there
      exact held item member a there
  | star =>
    obtain ⟨_, found⟩ := Prod.mk.inj combined
    cases found
    rw [List.mem_singleton.mp inside]
    exact made n.fresh (List.mem_singleton_self _)
  | plus =>
    obtain ⟨item, member, there⟩ :=
      Rule.mem_atoms_of_combine (fun _ _ => rfl) (Prod.mk.inj combined).2 inside
    rcases List.mem_append.mp member with before | tail
    · exact held item before a there
    · rw [List.mem_singleton.mp tail] at there
      rw [List.mem_singleton.mp there]
      exact made n.fresh (List.mem_singleton_self _)

namespace Expr

theorem atoms_evalPair {op : Rule → Rule → Rule} {left right : Expr}
    (parts : ∀ l r, (op l r).atoms = l.atoms ++ r.atoms)
    (first : ∀ {n₁ l}, left.eval bindings n = (n₁, .ok l) →
      (∀ m ∈ left.made bindings n, P (.nonterminal m)) → ∀ a ∈ l.atoms, P a)
    (second : ∀ {n₁ n₂ r}, right.eval bindings n₁ = (n₂, .ok r) →
      (∀ m ∈ right.made bindings n₁, P (.nonterminal m)) → ∀ a ∈ r.atoms, P a)
    (evaluated : evalPair bindings op left right n = (n', .ok rule))
    (made : ∀ m ∈ left.made bindings n ++ madeAfter (left.eval bindings n) (right.made bindings),
      P (.nonterminal m)) : ∀ a ∈ rule.atoms, P a := by
  obtain ⟨n₁, l, r, evaluatedLeft, evaluatedRight, rfl⟩ := of_evalPair evaluated
  simp only [evaluatedLeft, madeAfter, List.mem_append] at made
  intro a inside
  rw [parts, List.mem_append] at inside
  rcases inside with before | after
  · exact first evaluatedLeft (fun m member => made m (Or.inl member)) a before
  · exact second evaluatedRight (fun m member => made m (Or.inr member)) a after

mutual

theorem atoms_eval {e : Expr} {n n' : Naming} {rule : Rule} (bound : bindings.Hold P)
    (evaluated : e.eval bindings n = (n', .ok rule))
    (made : ∀ m ∈ e.made bindings n, P (.nonterminal m)) : ∀ a ∈ rule.atoms, P a := by
  match e with
  | .name id =>
    cases found : bindings.lookup id with
    | none => simp [eval, found] at evaluated
    | some value =>
      simp only [eval, found, Prod.mk.injEq, Except.ok.injEq] at evaluated
      exact evaluated.2 ▸ bound id value found
  | .nothing =>
    cases evaluated
    simp [Rule.atoms]
  | .shapeless =>
    cases evaluated
    simp [Rule.atoms]
  | .either left right =>
    rw [eval_either] at evaluated
    exact atoms_evalPair (fun _ _ => rfl) (atoms_eval bound) (atoms_eval bound) evaluated made
  | .both left right =>
    rw [eval_both] at evaluated
    exact atoms_evalPair (fun _ _ => rfl) (atoms_eval bound) (atoms_eval bound) evaluated made
  | .apply op items =>
    obtain ⟨n₁, rules, each, combined⟩ := of_eval_apply evaluated
    simp only [Expr.made, each, madeAfter, List.mem_append] at made
    exact Combinator.atoms_value combined
      (atoms_evalEach bound each fun m member => made m (Or.inl member))
      fun m member => made m (Or.inr member)

theorem atoms_evalEach {items : List Expr} {n n' : Naming} {rules : List Rule}
    (bound : bindings.Hold P) (evaluated : evalEach bindings items n = (n', .ok rules))
    (made : ∀ m ∈ madeEach bindings items n, P (.nonterminal m)) :
    ∀ rule ∈ rules, ∀ a ∈ rule.atoms, P a := by
  match items with
  | [] =>
    cases evaluated
    simp
  | e :: rest =>
    obtain ⟨n₁, value, values, first, second, rfl⟩ := of_evalEach_cons evaluated
    simp only [madeEach, first, madeAfter, List.mem_append] at made
    intro rule member
    rcases List.mem_cons.mp member with rfl | member
    · exact atoms_eval bound first fun m member => made m (Or.inl member)
    · exact atoms_evalEach bound second (fun m member => made m (Or.inr member)) rule member

end

theorem evalPair_adds {op : Rule → Rule → Rule} {left right : Expr}
    (first : (∀ m ∈ left.made bindings n, P (.nonterminal m)) → n.Adds P (left.eval bindings n).1)
    (second : ∀ n : Naming, (∀ m ∈ right.made bindings n, P (.nonterminal m)) →
      n.Adds P (right.eval bindings n).1)
    (made : ∀ m ∈ left.made bindings n ++ madeAfter (left.eval bindings n) (right.made bindings),
      P (.nonterminal m)) : n.Adds P (evalPair bindings op left right n).1 := by
  have earlier := first fun m member => made m (List.mem_append_left _ member)
  rcases evaluated : left.eval bindings n with ⟨n₁, failure | value⟩ <;>
    rw [evaluated] at earlier made
  · simpa only [evalPair, evaluated] using earlier
  · simpa only [evalPair, evaluated] using
      earlier.trans (second n₁ fun m member => made m (List.mem_append_right _ member))

mutual

theorem eval_adds {e : Expr} {n : Naming} (bound : bindings.Hold P)
    (made : ∀ m ∈ e.made bindings n, P (.nonterminal m)) : n.Adds P (e.eval bindings n).1 := by
  match e with
  | .name id =>
    unfold eval
    split <;> exact .refl n
  | .nothing => exact .refl n
  | .shapeless => exact .refl n
  | .either left right =>
    rw [eval_either]
    exact evalPair_adds (eval_adds bound) (fun _ => eval_adds bound) made
  | .both first second =>
    rw [eval_both]
    exact evalPair_adds (eval_adds bound) (fun _ => eval_adds bound) made
  | .apply op items =>
    -- Repetitions in the items stay, also if there is none for the combination itself.
    rw [Expr.made] at made
    have first := evalEach_adds bound fun m member => made m (List.mem_append_left _ member)
    rcases evaluated : evalEach bindings items n with ⟨n₁, failure | values⟩ <;>
      rw [evaluated] at first made
    · simpa only [eval, evaluated] using first
    · have held := atoms_evalEach bound evaluated
        fun m member => made m (List.mem_append_left _ member)
      simpa only [eval, evaluated] using first.trans (.combinator op held n₁)

theorem evalEach_adds {items : List Expr} {n : Naming} (bound : bindings.Hold P)
    (made : ∀ m ∈ madeEach bindings items n, P (.nonterminal m)) :
    n.Adds P (evalEach bindings items n).1 := by
  match items with
  | [] => exact .refl n
  | e :: rest =>
    rw [madeEach] at made
    have first := eval_adds bound fun m member => made m (List.mem_append_left _ member)
    rcases evaluated : e.eval bindings n with ⟨n₁, failure | value⟩ <;>
      rw [evaluated] at first made
    · simpa only [evalEach, evaluated] using first
    · simpa only [evalEach, evaluated] using
        first.trans (evalEach_adds bound fun m member => made m (List.mem_append_right _ member))

end

end Expr

end Content

end TopDown.Notation
