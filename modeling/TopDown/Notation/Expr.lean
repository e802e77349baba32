import TopDown.Notation.Rule

namespace TopDown.Notation

inductive Combinator where
  | seq
  | alt
  | opt
  | star
  | plus
  deriving DecidableEq, Repr

inductive Expr where
  | name (id : String)
  | nothing
  | shapeless
  | either (left right : Expr)
  | both (first second : Expr)
  | apply (op : Combinator) (items : List Expr)

/-- The rule being evaluated and the number of the next repetition in it. -/
structure Scope where
  rule : String
  next : Nat
  deriving DecidableEq, Repr

/-- The scope, and what each repetition made so far repeats. -/
structure Naming where
  scope : Scope
  repeated : List Rule
  deriving DecidableEq, Repr

/-- Evaluation may fail after it has made repetitions; they stay. -/
abbrev Evaluated (α : Type) := Naming × Except RuleError α

def repetitionName (s : Scope) : String := "__gen_" ++ s.rule ++ "_" ++ toString s.next

def Naming.repetition (n : Naming) (item : Rule) : Naming × Rule :=
  (⟨{ n.scope with next := n.scope.next + 1 }, n.repeated ++ [item]⟩,
    .atom (.nonterminal ⟨.generated n.repeated.length, repetitionName n.scope⟩))

def repeatedItem (items : List Rule) : Rule :=
  match Rule.sequenceOf items with
  | .ok item => item
  | .error _ => .nothing

def Combinator.value (items : List Rule) (n : Naming) : Combinator → Evaluated Rule
  | seq => (n, Rule.sequenceOf items)
  | alt => (n, Rule.choiceOf items)
  | opt => (n, (Rule.sequenceOf items).map fun item => .choice item .nothing)
  | star =>
    match n.repetition (repeatedItem items) with
    | (n, tail) => (n, .ok tail)
  | plus =>
    match n.repetition (repeatedItem items) with
    | (n, tail) => (n, Rule.sequenceOf (items ++ [tail]))

abbrev Bindings := List (String × Rule)

namespace Expr

mutual

def eval (bindings : Bindings) : Expr → Naming → Evaluated Rule
  | name id, n =>
    match bindings.lookup id with
    | some rule => (n, .ok rule)
    | none => (n, .error (.unknownName id))
  | nothing, n => (n, .ok .nothing)
  | shapeless, n => (n, .ok .shapeless)
  | either left right, n =>
    match left.eval bindings n with
    | (n, .error e) => (n, .error e)
    | (n, .ok l) =>
      match right.eval bindings n with
      | (n, r) => (n, r.map (.choice l ·))
  | both first second, n =>
    match first.eval bindings n with
    | (n, .error e) => (n, .error e)
    | (n, .ok f) =>
      match second.eval bindings n with
      | (n, s) => (n, s.map (.sequence f ·))
  | apply op items, n =>
    match evalEach bindings items n with
    | (n, .error e) => (n, .error e)
    | (n, .ok rules) => op.value rules n

def evalEach (bindings : Bindings) : List Expr → Naming → Evaluated (List Rule)
  | [], n => (n, .ok [])
  | e :: rest, n =>
    match e.eval bindings n with
    | (n, .error e) => (n, .error e)
    | (n, .ok rule) =>
      match evalEach bindings rest n with
      | (n, rules) => (n, rules.map (rule :: ·))

end

mutual

def repetitions : Expr → Nat
  | name _ => 0
  | nothing => 0
  | shapeless => 0
  | either left right => left.repetitions + right.repetitions
  | both first second => first.repetitions + second.repetitions
  | apply _ items => repetitionsEach items + 1

def repetitionsEach : List Expr → Nat
  | [] => 0
  | e :: rest => e.repetitions + repetitionsEach rest

end

end Expr

end TopDown.Notation
