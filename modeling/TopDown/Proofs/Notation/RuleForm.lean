import Mathlib.Data.List.Forall2
import TopDown.Notation.Gather
import TopDown.Proofs.Derivation
import TopDown.Proofs.Lookup

namespace TopDown

open Notation

namespace Notation

def leaf (ident : Symbol → String) (s : Symbol) : Terminal := ⟨ident s, s⟩

def node (ident : Symbol → String) (s : Symbol) : Nonterminal := ⟨.defined (ident s), s⟩

end Notation

namespace Grammar

variable (g : Grammar) (ident : Symbol → String)

def atomOf (s : Symbol) : Atom :=
  if s ∈ g.nonterminals then .nonterminal (node ident s) else .terminal (leaf ident s)

theorem atomOf_nonterminal {g : Grammar} {s : Symbol} (member : s ∈ g.nonterminals) :
    g.atomOf ident s = .nonterminal (node ident s) := if_pos member

theorem atomOf_terminal {g : Grammar} {s : Symbol} (member : s ∈ g.terminals) :
    g.atomOf ident s = .terminal (leaf ident s) :=
  if_neg (g.wellFormed.disjoint s member)

theorem atomOf_name (s : Symbol) : (g.atomOf ident s).name = s := by
  unfold atomOf
  split <;> rfl

def atomsOf (s : Symbol) : List (List Atom) :=
  (g.productionsOf s).map fun p => p.body.map (g.atomOf ident)

def sideExpr (p : Production) : Expr :=
  if p.body.isEmpty then .nothing else .apply .seq (p.body.map fun s => .name (ident s))

def ruleExpr (s : Symbol) : Expr := .apply .alt ((g.productionsOf s).map (sideExpr ident))

/-- A terminal for each terminal and a rule for each nonterminal, whose body is the choice of its
alternatives, each the sequence of its symbols. They may be written in any order. -/
def ruleForm (terminals nonterminals : List Symbol) : Rulebook :=
  Rulebook.ofDefinitions (terminals.map (leaf ident))
    (nonterminals.map fun s => ⟨ident s, some s, g.ruleExpr ident s⟩)

end Grammar

namespace Notation

namespace Rule

variable {first : Rule} {atoms xs : List Atom} {ls alternatives : List (List Atom)}
  {rules : List Rule}

theorem flatten_foldl_sequence (flat : first.flatten = .ok [xs]) (atoms : List Atom) :
    ((atoms.map Rule.atom).foldl Rule.sequence first).flatten = .ok [xs ++ atoms] := by
  induction atoms generalizing first xs with
  | nil => simpa using flat
  | cons a atoms ih =>
    have next : (Rule.sequence first (.atom a)).flatten = .ok [xs ++ [a]] := by
      simp [flatten, flat, Except.map]
    simpa using ih next

theorem exists_sequenceOf (some : atoms ≠ []) :
    ∃ rule, sequenceOf (atoms.map Rule.atom) = .ok rule ∧ rule.flatten = .ok [atoms] := by
  obtain ⟨a, rest, rfl⟩ := List.exists_cons_of_ne_nil some
  have flat : (Rule.atom a).flatten = .ok [[a]] := rfl
  exact ⟨_, rfl, flatten_foldl_sequence flat rest⟩

theorem flatten_foldl_choice (flat : first.flatten = .ok ls)
    (each : List.Forall₂ (fun rule atoms => rule.flatten = .ok [atoms]) rules alternatives) :
    (rules.foldl Rule.choice first).flatten = .ok (ls ++ alternatives) := by
  induction each generalizing first ls with
  | nil => simpa using flat
  | @cons rule atoms rules alternatives here _ ih =>
    have next : (Rule.choice first rule).flatten = .ok (ls ++ [atoms]) := by
      simp [flatten, flat, here, Except.map]
    simpa using ih next

theorem exists_choiceOf (some : alternatives ≠ [])
    (each : List.Forall₂ (fun rule atoms => rule.flatten = .ok [atoms]) rules alternatives) :
    ∃ rule, choiceOf rules = .ok rule ∧ rule.flatten = .ok alternatives := by
  cases each with
  | nil => exact absurd rfl some
  | cons here rest => exact ⟨_, rfl, flatten_foldl_choice here rest⟩

end Rule

namespace Rulebook

/-- The rulebook binds the symbols of a grammar and defines its nonterminals by their alternatives,
and the bodies that it has kept are these alternatives. -/
structure Forms (b : Rulebook) (g : Grammar) (ident : Symbol → String) : Prop where
  bound : ∀ s, s ∈ g.terminals ∨ s ∈ g.nonterminals →
    b.bindings.lookup (ident s) = some (.atom (g.atomOf ident s))
  definition : ∀ s ∈ g.nonterminals, b.definitions.lookup (ident s) = some (g.ruleExpr ident s)
  kept : ∀ s ∈ g.nonterminals, ∀ alternatives,
    b.bodies.lookup (node ident s) = some alternatives → alternatives = g.atomsOf ident s

namespace Forms

variable {b : Rulebook} {g : Grammar} {ident : Symbol → String} {s : Symbol} {p : Production}

theorem evalEach_names (forms : b.Forms g ident) {symbols : List Symbol}
    (declared : ∀ s ∈ symbols, s ∈ g.terminals ∨ s ∈ g.nonterminals) (n : Naming) :
    Expr.evalEach b.bindings (symbols.map fun s => .name (ident s)) n =
      (n, .ok ((symbols.map (g.atomOf ident)).map Rule.atom)) := by
  induction symbols with
  | nil => simp [Expr.evalEach]
  | cons s rest ih =>
    have here := forms.bound s (declared s List.mem_cons_self)
    have later := ih fun t inside => declared t (List.mem_cons_of_mem s inside)
    simp [Expr.evalEach, Expr.eval, here, later, Except.map]

theorem eval_side (forms : b.Forms g ident) (member : p ∈ g.productions) (n : Naming) :
    ∃ rule, (Grammar.sideExpr ident p).eval b.bindings n = (n, .ok rule) ∧
      rule.flatten = .ok [p.body.map (g.atomOf ident)] := by
  unfold Grammar.sideExpr
  split
  · rename_i none
    rw [List.isEmpty_iff.mp none]
    exact ⟨.nothing, by simp [Expr.eval], rfl⟩
  · rename_i some
    have atoms : p.body.map (g.atomOf ident) ≠ [] := by simpa using some
    obtain ⟨rule, combined, flat⟩ := Rule.exists_sequenceOf atoms
    have names := forms.evalEach_names (fun s inside => Grammar.mem_body member inside) n
    exact ⟨rule, by simp only [Expr.eval, names, Combinator.value, combined], flat⟩

theorem evalEach_sides (forms : b.Forms g ident) {ps : List Production}
    (rules : ∀ p ∈ ps, p ∈ g.productions) (n : Naming) :
    ∃ values, Expr.evalEach b.bindings (ps.map (Grammar.sideExpr ident)) n = (n, .ok values) ∧
      List.Forall₂ (fun rule atoms => rule.flatten = .ok [atoms]) values
        (ps.map fun p => p.body.map (g.atomOf ident)) := by
  induction ps with
  | nil => exact ⟨[], by simp [Expr.evalEach], .nil⟩
  | cons p rest ih =>
    obtain ⟨rule, here, flat⟩ := forms.eval_side (rules p List.mem_cons_self) n
    obtain ⟨values, later, each⟩ := ih fun q inside => rules q (List.mem_cons_of_mem p inside)
    exact ⟨rule :: values, by simp [Expr.evalEach, here, later, Except.map], .cons flat each⟩

theorem source (forms : b.Forms g ident) (nonterminal : s ∈ g.nonterminals)
    (some : g.productionsOf s ≠ []) : ∃ naming rule, b.source (node ident s) = (naming, .ok rule) ∧
      rule.flatten = .ok (g.atomsOf ident s) := by
  have rules : ∀ p ∈ g.productionsOf s, p ∈ g.productions :=
    fun p inside => (List.mem_filter.mp inside).1
  obtain ⟨values, evaluated, each⟩ := forms.evalEach_sides rules ⟨⟨s, 0⟩, b.naming.repeated⟩
  have alternatives : g.atomsOf ident s ≠ [] := by simpa [Grammar.atomsOf] using some
  obtain ⟨rule, combined, flat⟩ := Rule.exists_choiceOf alternatives each
  refine ⟨⟨⟨s, 0⟩, b.naming.repeated⟩, rule, ?_, flat⟩
  simp only [Rulebook.source, node, forms.definition s nonterminal, Grammar.ruleExpr, Expr.eval,
    evaluated, Combinator.value, combined]

theorem body (forms : b.Forms g ident) (nonterminal : s ∈ g.nonterminals)
    (some : g.productionsOf s ≠ []) :
    ∃ b', b.body (node ident s) = (b', .ok (g.atomsOf ident s)) ∧ b'.Forms g ident := by
  unfold Rulebook.body
  cases asked : b.bodies.lookup (node ident s) with
  | some alternatives =>
    obtain rfl := forms.kept s nonterminal alternatives asked
    exact ⟨b, rfl, forms⟩
  | none =>
    obtain ⟨naming, rule, evaluated, flat⟩ := forms.source nonterminal some
    simp only [evaluated, flat]
    refine ⟨_, rfl, forms.bound, forms.definition, ?_⟩
    intro t member alternatives found
    rw [List.lookup_cons] at found
    split at found
    · rename_i same
      cases found
      have name : t = s := congrArg Nonterminal.name (beq_iff_eq.mp same)
      rw [name]
    · exact forms.kept t member alternatives found

end Forms

end Rulebook

section Bound

variable {g : Grammar} {ident : Symbol → String} {terminals nonterminals : List Symbol} {s : Symbol}

theorem ruleName_some (plain : s ≠ "") (id : String) (e : Expr) :
    (Definition.mk id (some s) e).ruleName = s := by
  simp [Definition.ruleName, plain]

theorem mem_bindings_ruleForm (leaves : ∀ s, s ∈ terminals ↔ s ∈ g.terminals)
    (names : ∀ s, s ∈ nonterminals ↔ s ∈ g.nonterminals) (named : ¬ "" ∈ g.nonterminals)
    {e : String × Rule} : e ∈ (g.ruleForm ident terminals nonterminals).bindings ↔
      ∃ s, (s ∈ g.terminals ∨ s ∈ g.nonterminals) ∧ (ident s, Rule.atom (g.atomOf ident s)) = e := by
  simp only [Grammar.ruleForm, Rulebook.ofDefinitions, List.map_map, List.mem_append,
    List.mem_reverse, List.mem_map, Function.comp_apply, leaves, names]
  have plain : ∀ s, s ∈ g.nonterminals → s ≠ "" := fun s member none => named (none ▸ member)
  constructor
  · rintro (⟨s, member, rfl⟩ | ⟨s, member, rfl⟩)
    · refine ⟨s, Or.inr member, ?_⟩
      rw [Grammar.atomOf_nonterminal ident member, node, ruleName_some (plain s member)]
    · refine ⟨s, Or.inl member, ?_⟩
      rw [Grammar.atomOf_terminal ident member]
      rfl
  · rintro ⟨s, member | member, rfl⟩
    · refine Or.inr ⟨s, member, ?_⟩
      rw [Grammar.atomOf_terminal ident member]
      rfl
    · refine Or.inl ⟨s, member, ?_⟩
      rw [Grammar.atomOf_nonterminal ident member, node, ruleName_some (plain s member)]

theorem mem_definitions_ruleForm (names : ∀ s, s ∈ nonterminals ↔ s ∈ g.nonterminals)
    {e : String × Expr} : e ∈ (g.ruleForm ident terminals nonterminals).definitions ↔
      ∃ s ∈ g.nonterminals, (ident s, g.ruleExpr ident s) = e := by
  simp [Grammar.ruleForm, Rulebook.ofDefinitions, names]

theorem forms_ruleForm (leaves : ∀ s, s ∈ terminals ↔ s ∈ g.terminals)
    (names : ∀ s, s ∈ nonterminals ↔ s ∈ g.nonterminals) (named : ¬ "" ∈ g.nonterminals)
    (apart : ∀ s t, s ∈ g.terminals ∨ s ∈ g.nonterminals → t ∈ g.terminals ∨ t ∈ g.nonterminals →
      ident s = ident t → s = t) :
    (g.ruleForm ident terminals nonterminals).Forms g ident := by
  refine ⟨fun s declared => ?_, fun s member => ?_, fun s _ alternatives found => ?_⟩
  · refine lookup_eq_some_of_unique
      ((mem_bindings_ruleForm leaves names named).mpr ⟨s, declared, rfl⟩) ?_
    intro other inside
    obtain ⟨t, declared', same⟩ := (mem_bindings_ruleForm leaves names named).mp inside
    obtain ⟨id, rfl⟩ := Prod.mk.inj same
    rw [apart t s declared' declared id]
  · refine lookup_eq_some_of_unique ((mem_definitions_ruleForm names).mpr ⟨s, member, rfl⟩) ?_
    intro other inside
    obtain ⟨t, member', same⟩ := (mem_definitions_ruleForm names).mp inside
    obtain ⟨id, rfl⟩ := Prod.mk.inj same
    rw [apart t s (Or.inr member') (Or.inr member) id]
  · cases found

end Bound

end Notation

end TopDown
