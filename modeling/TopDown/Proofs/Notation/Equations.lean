import Mathlib.Order.FixedPoints
import TopDown.Notation.Rulebook
import TopDown.Proofs.Lookup
import TopDown.Proofs.Notation.Meaning

namespace TopDown.Notation

open Computability

/-- A language for each defined rule and for each repetition. -/
def Reading.of (V : String → Language Symbol) (U : Nat → Language Symbol) : Reading
  | .defined id => V id
  | .generated serial => U serial

theorem Reading.of_restrict (W : Reading) :
    Reading.of (fun id => W (.defined id)) (fun serial => W (.generated serial)) = W := by
  funext origin
  cases origin <;> rfl

theorem Reading.of_le_of {V V' : String → Language Symbol} {U U' : Nat → Language Symbol}
    (defined : V ≤ V') (generated : U ≤ U') : Reading.of V U ≤ Reading.of V' U' := by
  intro origin
  cases origin with
  | defined id => exact defined id
  | generated serial => exact generated serial

namespace Rulebook

/-- The right side of the equation of a rule: what its definition means. -/
def rightSide (b : Rulebook) (V : String → Language Symbol) (id : String) : Language Symbol :=
  match b.definitions.lookup id with
  | some e => e.meaning (b.bindings.meaning (Reading.of V 0))
  | none => 0

def Solves (b : Rulebook) (V : String → Language Symbol) : Prop := ∀ id, V id = b.rightSide V id

variable {b later : Rulebook} {V : String → Language Symbol} {U : Nat → Language Symbol}
  {repeated : List Rule} {n : Nonterminal} {alternatives : List (List Atom)}

section Solution

theorem rightSide_mono (b : Rulebook) : Monotone b.rightSide := by
  intro V V' below id
  unfold rightSide
  split
  · apply Expr.meaning_mono
    exact Bindings.meaning_mono (Reading.of_le_of below le_rfl)
  · exact le_rfl

noncomputable def solution (b : Rulebook) : String → Language Symbol :=
  OrderHom.lfp ⟨b.rightSide, b.rightSide_mono⟩

theorem solution_solves (b : Rulebook) : b.Solves b.solution :=
  fun id => congrFun (OrderHom.map_lfp ⟨b.rightSide, b.rightSide_mono⟩).symm id

theorem solution_le (closed : b.rightSide V ≤ V) : b.solution ≤ V :=
  OrderHom.lfp_le ⟨b.rightSide, b.rightSide_mono⟩ closed

theorem solution_isLeast (b : Rulebook) : IsLeast {V | b.Solves V} b.solution := by
  constructor
  · exact b.solution_solves
  · exact fun V solves => solution_le fun id => (solves id).symm.le

def iterated (repeated : List Rule) (V : String → Language Symbol) (U : Nat → Language Symbol)
    (serial : Nat) : Language Symbol :=
  match repeated[serial]? with
  | some item => (item.meaning (Reading.of V U))∗
  | none => 0

theorem iterated_mono (repeated : List Rule) (V : String → Language Symbol) :
    Monotone (iterated repeated V) := by
  intro U U' below serial
  unfold iterated
  split
  · exact kstar_mono (Rule.meaning_mono (Reading.of_le_of le_rfl below) _)
  · exact le_rfl

/-- An item may hold earlier repetitions, so their languages are a least solution as well. -/
noncomputable def iterations (repeated : List Rule) (V : String → Language Symbol) :
    Nat → Language Symbol :=
  OrderHom.lfp ⟨iterated repeated V, iterated_mono repeated V⟩

theorem iterates_iterations (repeated : List Rule) (V : String → Language Symbol) :
    Iterates (Reading.of V (iterations repeated V)) repeated := by
  intro serial item found
  have fixed := OrderHom.map_lfp ⟨iterated repeated V, iterated_mono repeated V⟩
  have same : iterations repeated V serial =
      iterated repeated V (iterations repeated V) serial := congrFun fixed.symm serial
  rw [iterated, found] at same
  exact same

theorem iterations_le (closed : ∀ serial item, repeated[serial]? = some item →
    (item.meaning (Reading.of V U))∗ ≤ U serial) : iterations repeated V ≤ U := by
  apply OrderHom.lfp_le
  intro serial
  change iterated repeated V U serial ≤ U serial
  unfold iterated
  split
  · rename_i item found
    exact closed serial item found
  · exact bot_le

end Solution

section History

inductive Explains (b : Rulebook) : Nonterminal → List (List Atom) → Prop
  | defined {id name : String} {e : Expr} {alternatives : List (List Atom)}
    (found : b.definitions.lookup id = some e)
    (means : ∀ W, Iterates W b.naming.repeated →
      choiceMeaning W alternatives = e.meaning (b.bindings.meaning W)) :
    Explains b ⟨.defined id, name⟩ alternatives
  | generated {serial : Nat} {name : String} {item : Rule} {alternatives : List (List Atom)}
    (found : b.naming.repeated[serial]? = some item)
    (means : ∀ W, choiceMeaning W alternatives = item.meaning W * W (.generated serial) + 1) :
    Explains b ⟨.generated serial, name⟩ alternatives

structure Extends (b later : Rulebook) : Prop where
  bindings_eq : later.bindings = b.bindings
  definitions_eq : later.definitions = b.definitions
  grows : b.naming.repeated <+: later.naming.repeated

def Faithful (b : Rulebook) : Prop :=
  ∀ n alternatives, b.bodies.lookup n = some alternatives → b.Explains n alternatives

/-- The states of a rulebook while bodies are asked for and expressions are evaluated outside of
rules. -/
inductive Later (b : Rulebook) : Rulebook → Prop
  | now : Later b b
  | body {later : Rulebook} (before : Later b later) (n : Nonterminal) : Later b (later.body n).1
  | eval {later : Rulebook} (before : Later b later) (e : Expr) : Later b (later.eval e).1

theorem Extends.refl (b : Rulebook) : b.Extends b := ⟨rfl, rfl, List.prefix_rfl⟩

theorem Extends.trans {last : Rulebook} (first : b.Extends later) (second : later.Extends last) :
    b.Extends last where
  bindings_eq := second.bindings_eq.trans first.bindings_eq
  definitions_eq := second.definitions_eq.trans first.definitions_eq
  grows := first.grows.trans second.grows

theorem Explains.mono (explains : b.Explains n alternatives) (extended : b.Extends later) :
    later.Explains n alternatives := by
  cases explains with
  | defined found means =>
    apply Explains.defined (extended.definitions_eq ▸ found)
    intro W iterates
    rw [extended.bindings_eq]
    exact means W (iterates.of_prefix extended.grows)
  | generated found means =>
    refine Explains.generated ?_ means
    obtain ⟨more, same⟩ := extended.grows
    obtain ⟨bound, _⟩ := List.getElem?_eq_some_iff.mp found
    rw [← same, List.getElem?_append_left bound, found]

theorem Faithful.mono (faithful : b.Faithful) (extended : b.Extends later)
    (same : later.bodies = b.bodies) : later.Faithful := by
  intro n alternatives found
  rw [same] at found
  exact (faithful n alternatives found).mono extended

theorem source_grows (b : Rulebook) (n : Nonterminal) :
    b.naming.repeated <+: (b.source n).1.repeated := by
  unfold source
  split
  · split
    · exact Expr.eval_grows b.bindings _ ⟨⟨n.name, 0⟩, b.naming.repeated⟩
    · exact List.prefix_rfl
  · split <;> exact List.prefix_rfl

theorem after_extends (b : Rulebook) (n : Nonterminal) : b.Extends (b.after (b.source n).1) :=
  ⟨rfl, rfl, b.source_grows n⟩

theorem after_explains {naming : Naming} {rule : Rule} (evaluated : b.source n = (naming, .ok rule))
    (flat : rule.flatten = .ok alternatives) : (b.after naming).Explains n alternatives := by
  obtain ⟨origin, name⟩ := n
  cases origin with
  | defined id =>
    cases found : b.definitions.lookup id with
    | none => simp [source, found] at evaluated
    | some e =>
      simp only [source, found] at evaluated
      have kept : (b.after naming).definitions.lookup id = some e := found
      apply Explains.defined kept
      intro W iterates
      rw [Rule.choiceMeaning_flatten W flat]
      exact Expr.eval_meaning evaluated iterates
  | generated serial =>
    cases found : b.naming.repeated[serial]? with
    | none => simp [source, found] at evaluated
    | some item =>
      simp only [source, found, Prod.mk.injEq, Except.ok.injEq] at evaluated
      obtain ⟨rfl, rfl⟩ := evaluated
      have kept : (b.after b.naming).naming.repeated[serial]? = some item := found
      apply Explains.generated kept
      intro W
      rw [Rule.choiceMeaning_flatten W flat]
      rfl

theorem body_cases (b : Rulebook) (n : Nonterminal) :
    (∃ alternatives, b.bodies.lookup n = some alternatives ∧ b.body n = (b, .ok alternatives)) ∨
    (b.bodies.lookup n = none ∧ ∃ failure, b.body n = (b.after (b.source n).1, .error failure)) ∨
    (b.bodies.lookup n = none ∧ ∃ rule alternatives, (b.source n).2 = .ok rule ∧
      rule.flatten = .ok alternatives ∧ b.body n =
        ({ b.after (b.source n).1 with bodies := (n, alternatives) :: b.bodies },
          .ok alternatives)) := by
  cases kept : b.bodies.lookup n with
  | some alternatives => exact Or.inl ⟨alternatives, rfl, by simp only [body, kept]⟩
  | none =>
    rcases evaluated : b.source n with ⟨naming, failure | rule⟩
    · exact Or.inr (Or.inl ⟨rfl, failure, by simp only [body, kept, evaluated]⟩)
    · cases flat : rule.flatten with
      | error failure =>
        exact Or.inr (Or.inl ⟨rfl, failure, by simp only [body, kept, evaluated, flat]⟩)
      | ok alternatives =>
        exact Or.inr (Or.inr ⟨rfl, rule, alternatives, rfl, flat,
          by simp only [body, kept, evaluated, flat]⟩)

theorem body_spec (faithful : b.Faithful) (n : Nonterminal) : b.Extends (b.body n).1 ∧
    (b.body n).1.Faithful ∧
      ∀ alternatives, (b.body n).2 = .ok alternatives → (b.body n).1.Explains n alternatives := by
  have extended := b.after_extends n
  rcases b.body_cases n with ⟨held, kept, same⟩ | ⟨_, _, same⟩ | ⟨_, rule, held, evaluated, flat, same⟩
  · rw [same]
    refine ⟨Extends.refl b, faithful, fun alternatives answered => ?_⟩
    cases answered
    exact faithful n held kept
  · rw [same]
    refine ⟨extended, faithful.mono extended rfl, fun alternatives answered => ?_⟩
    cases answered
  · have explains : (b.after (b.source n).1).Explains n held :=
      after_explains (Prod.ext rfl evaluated) flat
    have noted : (b.after (b.source n).1).Extends { b.after (b.source n).1 with
        bodies := (n, held) :: b.bodies } := ⟨rfl, rfl, List.prefix_rfl⟩
    rw [same]
    refine ⟨extended.trans noted, ?_, fun alternatives answered => ?_⟩
    · intro m alternatives found
      rw [List.lookup_cons] at found
      split at found
      · rename_i equal
        obtain rfl := beq_iff_eq.mp equal
        exact (Option.some.inj found ▸ explains).mono noted
      · exact ((faithful m alternatives found).mono extended).mono noted
    · cases answered
      exact explains.mono noted

theorem eval_extends (b : Rulebook) (e : Expr) : b.Extends (b.eval e).1 :=
  ⟨rfl, rfl, Expr.eval_grows b.bindings e b.naming⟩

theorem Later.spec (unasked : b.bodies = []) (reached : b.Later later) :
    b.Extends later ∧ later.Faithful := by
  induction reached with
  | now =>
    refine ⟨Extends.refl b, ?_⟩
    intro n alternatives found
    rw [unasked] at found
    cases found
  | body _ n ih =>
    obtain ⟨extended, faithful, _⟩ := body_spec ih.2 n
    exact ⟨ih.1.trans extended, faithful⟩
  | @eval state _ e ih =>
    have extended := state.eval_extends e
    exact ⟨ih.1.trans extended, ih.2.mono extended rfl⟩

end History

section Definitions

variable {terminals : List Terminal} {rules : List Definition}

theorem of_lookup {id : String} {rule : Rule}
    (found : (ofDefinitions terminals rules).bindings.lookup id = some rule) :
    (∃ d ∈ rules, d.id = id ∧ rule = .atom (.nonterminal ⟨.defined id, d.ruleName⟩)) ∨
      ∃ t ∈ terminals, rule = .atom (.terminal t) := by
  have member := mem_of_lookup found
  simp only [ofDefinitions, List.mem_append, List.mem_reverse, List.mem_map] at member
  rcases member with ⟨d, member, same⟩ | ⟨t, member, same⟩
  · obtain ⟨rfl, rfl⟩ := Prod.mk.inj same
    exact Or.inl ⟨d, member, rfl, rfl⟩
  · obtain ⟨_, rfl⟩ := Prod.mk.inj same
    exact Or.inr ⟨t, member, rfl⟩

theorem meaning_bindings (V : String → Language Symbol) (U U' : Nat → Language Symbol) :
    (ofDefinitions terminals rules).bindings.meaning (Reading.of V U) =
      (ofDefinitions terminals rules).bindings.meaning (Reading.of V U') := by
  funext id
  unfold Bindings.meaning
  split
  · rename_i rule found
    rcases of_lookup found with ⟨d, _, _, rfl⟩ | ⟨t, _, rfl⟩
    · rfl
    · rfl
  · rfl

theorem origin_of_findNonterminal {id : String} {n : Nonterminal}
    (found : (ofDefinitions terminals rules).findNonterminal id = .ok n) :
    n.origin = .defined id := by
  unfold findNonterminal find at found
  cases bound : (ofDefinitions terminals rules).bindings.lookup id with
  | none => simp [bound] at found
  | some rule =>
    rw [bound] at found
    rcases of_lookup bound with ⟨d, _, _, rfl⟩ | ⟨t, _, rfl⟩
    · cases found
      rfl
    · cases found

end Definitions

end Rulebook

end TopDown.Notation
