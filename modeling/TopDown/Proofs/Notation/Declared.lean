import TopDown.Event
import TopDown.Proofs.Declaration.Verdict
import TopDown.Proofs.Notation.Exploration

namespace TopDown.Notation.Rulebook

variable {terminals : List Terminal} {rules : List Definition} {b later : Rulebook}
  {n start : Nonterminal} {found : Gathered} {alternatives : List (List Atom)} {id : String}
  {g : Grammar} {fault : GrammarFault} {s : Symbol}

section Filled

def Filled (b : Rulebook) : Prop :=
  ∀ n alternatives, b.bodies.lookup n = some alternatives → alternatives ≠ []

theorem Filled.body (filled : b.Filled) (n : Nonterminal) : (b.body n).1.Filled := by
  intro m alternatives kept
  rcases of_lookup_body kept with before | ⟨_, unasked, found⟩
  · exact filled m alternatives before
  · exact ne_nil_of_body unasked found

theorem bodies_define (b : Rulebook) (id : String) (e : Expr) : (b.define id e).1.bodies = b.bodies := by
  rcases define_cases b id e with same | ⟨_, _, same⟩ <;> rw [same] <;> rfl

theorem filled_asked (terminals : List Terminal) (rules : List Definition)
    (requests : List Request) : (asked terminals rules requests).Filled := by
  refine serveAll_keeps (fun _ n filled _ => filled.body n) (fun _ _ filled => filled)
    (fun b id e filled => ?_) requests fun n alternatives kept => ?_
  · rwa [Filled, bodies_define]
  · cases kept

end Filled

section Declaration

def Offers (b : Rulebook) (start n : Nonterminal) (side : List Atom) : Prop :=
  b.Reaches start (.nonterminal n) ∧
    ∃ alternatives, b.bodies.lookup n = some alternatives ∧ side ∈ alternatives

theorem Offers.reaches {side : List Atom} {a : Atom} (offers : b.Offers start n side)
    (inside : a ∈ side) : b.Reaches start a := by
  obtain ⟨reached, _, kept, alternative⟩ := offers
  exact reached.body kept alternative inside

namespace Collects

theorem isTerminal_iff (collects : Collects b start found) : (found.declaration start).IsTerminal s ↔
    ∃ t, b.Reaches start (.terminal t) ∧ t.name = s := by
  simp only [← collects.knows_iff]
  exact List.mem_map

theorem isNonterminal_iff (collects : Collects b start found) :
    (found.declaration start).IsNonterminal s ↔
      ∃ n, b.Reaches start (.nonterminal n) ∧ n.name = s := by
  simp only [← collects.knows_iff]
  exact List.mem_map

theorem mem_rules_iff (collects : Collects b start found) (rule : Symbol × List Symbol) :
    rule ∈ (found.declaration start).rules ↔
      ∃ n side, b.Offers start n side ∧ (n.name, side.map Atom.name) = rule := by
  rw [mem_rules_declaration]
  constructor
  · rintro ⟨r, member, side, alternative, same⟩
    have reached := (collects.knows_iff (.nonterminal r.1)).mp (List.mem_map_of_mem member)
    exact ⟨r.1, side, ⟨reached, r.2, collects.kept r member, alternative⟩, same⟩
  · rintro ⟨n, side, ⟨reached, alternatives, kept, alternative⟩, same⟩
    obtain ⟨r, member, rfl⟩ := List.mem_map.mp ((collects.knows_iff (.nonterminal n)).mpr reached)
    rw [collects.kept r member] at kept
    exact ⟨r, member, side, Option.some.inj kept ▸ alternative, same⟩

theorem exists_rule (collects : Collects b start found) (filled : b.Filled)
    (reached : b.Reaches start (.nonterminal n)) :
    ∃ rule ∈ (found.declaration start).rules, rule.1 = n.name := by
  obtain ⟨alternatives, kept⟩ := collects.exists_kept reached
  obtain ⟨side, rest, rfl⟩ := List.exists_cons_of_ne_nil (filled n alternatives kept)
  exact ⟨_, (collects.mem_rules_iff _).mpr ⟨n, side, ⟨reached, _, kept, List.mem_cons_self⟩, rfl⟩,
    rfl⟩

theorem apart (collects : Collects b start found) (calm : found.clash = none) :
    (found.declaration start).Apart := by
  intro s terminal nonterminal
  obtain ⟨t, first, rfl⟩ := collects.isTerminal_iff.mp terminal
  obtain ⟨n, second, same⟩ := collects.isNonterminal_iff.mp nonterminal
  have equal := collects.clash_eq_none_iff.mp calm _ _ first second same.symm
  cases equal

theorem declares (collects : Collects b start found) {rule : Symbol × List Symbol}
    (member : rule ∈ (found.declaration start).rules) :
    (found.declaration start).Declares rule := by
  obtain ⟨n, side, offers, rfl⟩ := (collects.mem_rules_iff rule).mp member
  constructor
  · exact collects.isNonterminal_iff.mpr ⟨n, offers.1, rfl⟩
  · intro s inside
    obtain ⟨a, appears, rfl⟩ := List.mem_map.mp inside
    have reached := offers.reaches appears
    cases a with
    | terminal t => exact Or.inr (Or.inl (collects.isTerminal_iff.mpr ⟨t, reached, rfl⟩))
    | nonterminal m => exact Or.inr (Or.inr (collects.isNonterminal_iff.mpr ⟨m, reached, rfl⟩))

theorem started (collects : Collects b start found) (filled : b.Filled) :
    (found.declaration start).Started :=
  ⟨collects.isNonterminal_iff.mpr ⟨start, .start, rfl⟩, collects.exists_rule filled .start⟩

theorem events_eq_nil (collects : Collects b start found) (filled : b.Filled)
    (made : (found.declaration start).grammar = .ok g) : g.events = [] := by
  obtain ⟨_, productions, _, nonterminals⟩ := Declaration.of_grammar made
  have none : g.barren = [] := by
    rw [List.eq_nil_iff_forall_not_mem]
    intro s member
    rw [Grammar.barren, SymbolSet.mem_toList, SymbolSet.mem_filter, nonterminals,
      Declaration.mem_nonterminalSet, collects.isNonterminal_iff] at member
    obtain ⟨⟨n, reached, rfl⟩, barren⟩ := member
    obtain ⟨rule, written, name⟩ := collects.exists_rule filled reached
    obtain ⟨p, inside, same, _⟩ := Declaration.exists_production written
    rw [← productions] at inside
    have held : p ∈ g.productionsOf n.name := by
      simpa [Grammar.productionsOf] using ⟨inside, same.trans name⟩
    rw [List.isEmpty_iff.mp barren] at held
    cases held
  rw [Grammar.events, none, List.map_nil]

end Collects

end Declaration

section Outcome

/-- What can become of a rule if no reachable body fails: a grammar, of which nothing has to be said,
or one of four faults of the names and alternatives that are reachable. -/
inductive Outcome (b : Rulebook) (start : Nonterminal) : Except RuleError Grammar → Prop
  | made {g : Grammar} (quiet : g.events = []) : Outcome b start (.ok g)
  | clash {cause : NameClash} {x y : Atom} (first : b.Reaches start x) (second : b.Reaches start y)
    (different : x ≠ y) (same : x.name = y.name) : Outcome b start (.error (.clash cause))
  | reserved {names : List Symbol} (listed : Declaration.Lists names fun s =>
      (∃ a, b.Reaches start a ∧ a.name = s) ∧ s.Reserved) :
    Outcome b start (.error (.grammar (.reserved names)))
  | mixed {p : Production} {n : Nonterminal} {side : List Atom} {mark : Atom}
    (offers : b.Offers start n side) (written : p.rule = (n.name, side.map Atom.name))
    (long : 1 < side.length) (inside : mark ∈ side) (named : mark.name = Symbol.empty) :
    Outcome b start (.error (.grammar (.mixedEmpty p)))
  | repeated {p q : Production} {n : Nonterminal} {side : List Atom} (offers : b.Offers start n side)
    (written : p.rule = Declaration.marked (n.name, side.map Atom.name)) (same : q.rule = p.rule)
    (earlier : q.index < p.index) : Outcome b start (.error (.grammar (.repeated q p)))

namespace Collects

theorem exists_offer (collects : Collects b start found) {p : Production}
    (member : p ∈ (found.declaration start).productions) : ∃ n side, b.Offers start n side ∧
      p.rule = Declaration.marked (n.name, side.map Atom.name) := by
  have held := List.mem_map_of_mem (f := Production.rule) member
  rw [Declaration.map_rule_productions] at held
  obtain ⟨rule, inside, same⟩ := List.mem_map.mp held
  obtain ⟨n, side, offers, rfl⟩ := (collects.mem_rules_iff rule).mp inside
  exact ⟨n, side, offers, same.symm⟩

theorem mixed (collects : Collects b start found) {p : Production}
    (member : p ∈ (found.declaration start).productions) (mixed : Declaration.Mixed p.rule) :
    Outcome b start (.error (.grammar (.mixedEmpty p))) := by
  obtain ⟨n, side, offers, written⟩ := collects.exists_offer member
  rw [written, Declaration.mixed_marked] at mixed
  obtain ⟨long, mark⟩ := mixed
  obtain ⟨a, inside, named⟩ := List.mem_map.mp mark
  have nonempty : (side.map Atom.name).isEmpty = false := by
    cases side with
    | nil => cases inside
    | cons a rest => rfl
  rw [Declaration.marked, nonempty] at written
  exact .mixed offers written (by simpa using long) inside named

theorem refused (collects : Collects b start found) (filled : b.Filled)
    (calm : found.clash = none) (refused : (found.declaration start).Refused fault) :
    Outcome b start (.error (.grammar fault)) := by
  cases refused with
  | mixedEmpty written _ mixed => exact collects.mixed (by simp [written]) mixed
  | reserved _ lists =>
    refine .reserved ⟨lists.1, lists.2.1, fun s => (lists.2.2 s).trans (and_congr_left' ?_)⟩
    rw [collects.isTerminal_iff, collects.isNonterminal_iff]
    constructor
    · rintro (⟨t, reached, name⟩ | ⟨n, reached, name⟩)
      · exact ⟨_, reached, name⟩
      · exact ⟨_, reached, name⟩
    · rintro ⟨a, reached, name⟩
      cases a with
      | terminal t => exact Or.inl ⟨t, reached, name⟩
      | nonterminal n => exact Or.inr ⟨n, reached, name⟩
  -- A terminal and a rule of one name would have clashed, and all that a rule uses is reachable.
  | bothKinds _ _ lists =>
    obtain ⟨s, rest, rfl⟩ := List.exists_cons_of_ne_nil lists.1
    obtain ⟨terminal, nonterminal⟩ := (lists.2.2 s).mp List.mem_cons_self
    exact absurd nonterminal (collects.apart calm s terminal)
  | @undeclared before p after s _ _ _ written _ stranger =>
    have member : p ∈ (found.declaration start).productions := by simp [written]
    have declares := Declaration.forall_productions.mpr
      (fun rule inside => Declaration.declares_marked.mpr (collects.declares inside)) p member
    rcases stranger with ⟨unknown, _⟩ | ⟨_, left, right, split, unknown, _⟩
    · exact absurd declares.1 unknown
    · exact absurd (declares.2 s (by simp [split])) unknown
  | @repeated before p after q _ _ _ written _ _ held same =>
    have member : p ∈ (found.declaration start).productions := by simp [written]
    obtain ⟨n, side, offers, rule⟩ := collects.exists_offer member
    have ascending := Production.ascending (found.declaration start).index_productions
    rw [written] at ascending
    have earlier := (List.pairwise_append.mp ascending).2.2 q held p List.mem_cons_self
    exact .repeated offers rule same earlier
  | noStart _ _ _ _ _ missing => exact absurd (collects.started filled) missing

end Collects

/-- If no reachable body fails, a rule is made into a grammar that declares all it uses and leaves
nothing without a production, or it is refused because two names are equal, a name is reserved, a
symbol that is named like the mark stands beside others, or a production is there twice. -/
theorem grammar_declared (requests : List Request)
    (found : (asked terminals rules requests).findNonterminal id = .ok start)
    (unfailing : (asked terminals rules requests).Unfailing start) :
    ∃ later answer, (asked terminals rules requests).grammar start = (later, answer) ∧
      Outcome later start answer := by
  obtain ⟨later, g, visited, collects⟩ := exists_visit (orderly_asked terminals rules requests)
    (inUse_of_findNonterminal found) unfailing
  have filled : later.Filled := by
    have kept := visit_keeps (P := Filled) (fun _ n filled => filled.body n)
      (asked terminals rules requests).visitBound [start] ⟨[], []⟩
      (filled_asked terminals rules requests)
    rwa [visited] at kept
  cases clash : g.clash with
  | some cause =>
    obtain ⟨x, y, first, second, different, same⟩ := collects.exists_clash clash
    refine ⟨later, .error (.clash cause), by simp only [grammar, gather, visited, clash], ?_⟩
    exact .clash first second different same
  | none =>
    cases declared : (g.declaration start).grammar with
    | ok made =>
      refine ⟨later, .ok made, by simp only [grammar, gather, visited, clash, declared], ?_⟩
      exact .made (collects.events_eq_nil filled declared)
    | error fault =>
      refine ⟨later, .error (.grammar fault), ?_, ?_⟩
      · simp only [grammar, gather, visited, clash, declared]
      · have refused := Declaration.fault_eq_some_iff.mp
          (Declaration.grammar_eq_error_iff.mp declared)
        exact collects.refused filled clash refused

end Outcome

end TopDown.Notation.Rulebook

namespace TopDown.Sample

open Notation

theorem statements_grammar_declared :
    ∃ later g, statements.grammar statementsStart = (later, .ok g) ∧ g.events = [] := by
  have found : statements.findNonterminal "program" = .ok statementsStart := by decide +kernel
  have computed : (statements.grammar statementsStart).2.toOption.isSome = true := by decide +kernel
  obtain ⟨later, answer, made, outcome⟩ :=
    Rulebook.grammar_declared [] found statements_unfailing
  change statements.grammar statementsStart = (later, answer) at made
  rw [made] at computed
  cases outcome with
  | made quiet => exact ⟨later, _, made, quiet⟩
  | clash _ _ _ _ => cases computed
  | reserved _ => cases computed
  | mixed _ _ _ _ _ => cases computed
  | repeated _ _ _ _ => cases computed

def markRules : List Definition :=
  [⟨"S", none, .apply .seq (named ["A", "E"])⟩, ⟨"E", some Symbol.empty, .name "A"⟩]

def markRule : Rulebook := .ofDefinitions [⟨"A", "a"⟩] markRules

def markRuleStart : Nonterminal := ⟨.defined "S", "S"⟩

/-- The mark that stands beside other symbols is not the name of a terminal. -/
theorem markRule_mixes :
    markRule.findNonterminal "S" = .ok markRuleStart ∧ markRule.Unfailing markRuleStart ∧
    ∃ later, markRule.grammar markRuleStart =
      (later, .error (.grammar (.mixedEmpty ⟨"S", ["a", Symbol.empty], 0⟩))) ∧
      ∀ t, later.Reaches markRuleStart (.terminal t) → t.name ≠ Symbol.empty := by
  have found : markRule.findNonterminal "S" = .ok markRuleStart := by decide +kernel
  have sound : ∀ d ∈ markRules, d.body.sound (fun id =>
      (markRule.bindings.lookup id).isSome) = true := by decide +kernel
  have unfailing : markRule.Unfailing markRuleStart := Rulebook.unfailing_of_sound sound found
  have refused : (markRule.grammar markRuleStart).2.map (fun _ => ()) =
      .error (.grammar (.mixedEmpty ⟨"S", ["a", Symbol.empty], 0⟩)) := by decide +kernel
  have leaves : (markRule.visit markRule.visitBound [markRuleStart] ⟨[], []⟩).2.toOption.map
      (·.terminals) = some [⟨"A", "a"⟩] := by decide +kernel
  obtain ⟨later, g, visited, collects⟩ := Rulebook.exists_visit
    (Rulebook.orderly_ofDefinitions [⟨"A", "a"⟩] markRules) (Rulebook.inUse_of_findNonterminal found)
    unfailing
  change markRule.visit markRule.visitBound [markRuleStart] ⟨[], []⟩ = (later, .ok g) at visited
  have same : (markRule.grammar markRuleStart).1 = later := by
    rw [Rulebook.fst_grammar, Rulebook.fst_gather, visited]
  have answer : (markRule.grammar markRuleStart).2 =
      .error (.grammar (.mixedEmpty ⟨"S", ["a", Symbol.empty], 0⟩)) := by
    cases made : (markRule.grammar markRuleStart).2 with
    | ok _ =>
      rw [made] at refused
      cases refused
    | error failure =>
      rw [made] at refused
      rw [Except.error.inj refused]
  refine ⟨found, unfailing, later, Prod.ext same answer, fun t reached => ?_⟩
  have member : t ∈ g.terminals := (collects.knows_iff (.terminal t)).mpr reached
  rw [visited] at leaves
  rw [show g.terminals = [⟨"A", "a"⟩] from Option.some.inj leaves] at member
  rw [List.mem_singleton.mp member]
  decide

end TopDown.Sample
