import TopDown.Proofs.Notation.Gather
import TopDown.Proofs.Language
import TopDown.Sample

namespace TopDown.Notation.Rulebook

open Computability

variable {terminals : List Terminal} {rules : List Definition} {b b' : Rulebook}
  {start n : Nonterminal} {found : Gathered} {g : Grammar} {W : Reading}
  {V : String → Language Symbol} {U : Nat → Language Symbol} {alternatives : List (List Atom)}

theorem Explains.choiceMeaning_eq (explains : b.Explains n alternatives)
    (extended : (ofDefinitions terminals rules).Extends b)
    (solves : (ofDefinitions terminals rules).Solves V)
    (iterates : Iterates (Reading.of V U) b.naming.repeated) :
    choiceMeaning (Reading.of V U) alternatives = Reading.of V U n.origin := by
  cases explains with
  | @defined id name e alternatives held means =>
    rw [extended.definitions_eq] at held
    have equation := solves id
    rw [rightSide, held] at equation
    rw [means _ iterates, extended.bindings_eq, meaning_bindings V U 0]
    exact equation.symm
  | generated held means =>
    rw [means, iterates _ _ held, add_comm]
    exact one_add_mul_kstar

/-- The words that all gathered symbols of a name mean. There is but one such symbol, or none. -/
def meant (found : Gathered) (W : Reading) (s : Symbol) : Language Symbol :=
  {word | ∀ a, found.Knows a → a.name = s → word ∈ a.meaning W}

theorem meant_le {a : Atom} (knows : found.Knows a) : meant found W a.name ≤ a.meaning W :=
  fun _ inside => inside a knows rfl

theorem Writes.mem_meant (writes : Writes start found g) (complete : Complete b start found)
    {s : Symbol} (terminal : s ∈ g.terminals) : [s] ∈ meant found W s := by
  intro a knows name
  obtain ⟨t, held, rfl⟩ := (writes.terminal_iff s).mp terminal
  obtain rfl := Gathered.eq_of_name complete.calm knows (b := .terminal t) held name
  rfl

theorem Writes.prod_le_meant (writes : Writes start found g) (complete : Complete b start found)
    (same : ∀ rule ∈ found.rules, choiceMeaning W rule.2 = W rule.1.origin) {p : Production}
    (member : p ∈ g.productions) : (p.body.map (meant found W)).prod ≤ meant found W p.name := by
  intro word inside a knows name
  obtain ⟨rule, held, atoms, alternative, named, body⟩ := writes.exists_rule p member
  have gathered : rule.1 ∈ found.nonterminals := List.mem_map_of_mem held
  obtain rfl := Gathered.eq_of_name complete.calm knows (b := .nonterminal rule.1) gathered
    (name.trans named)
  have smaller : (p.body.map (meant found W)).prod ≤ sequenceMeaning W atoms := by
    rw [body, List.map_map]
    apply List.prod_le_prod'
    exact fun c appears => meant_le (complete.closed rule held atoms alternative c appears)
  change word ∈ W rule.1.origin
  rw [← same rule held]
  exact mem_choiceMeaning.mpr ⟨atoms, alternative, smaller inside⟩

theorem Writes.language_le_meaning (writes : Writes start found g)
    (complete : Complete b start found)
    (same : ∀ rule ∈ found.rules, choiceMeaning W rule.2 = W rule.1.origin) {a : Atom}
    (knows : found.Knows a) : g.language a.name ≤ a.meaning W := by
  have terminal : ∀ s ∈ g.terminals, [s] ∈ meant found W s :=
    fun s member => writes.mem_meant complete member
  have closed : ∀ p ∈ g.productions, (p.body.map (meant found W)).prod ≤ meant found W p.name :=
    fun p member => writes.prod_le_meant complete same member
  exact (Grammar.language_le terminal closed a.name).trans (meant_le knows)

theorem Writes.choiceMeaning_le (writes : Writes start found g) (complete : Complete b start found)
    (below : ∀ n ∈ found.nonterminals, W n.origin ≤ g.language n.name)
    {rule : Nonterminal × List (List Atom)} (held : rule ∈ found.rules) :
    choiceMeaning W rule.2 ≤ g.language rule.1.name := by
  intro word inside
  obtain ⟨atoms, alternative, inside⟩ := mem_choiceMeaning.mp inside
  obtain ⟨p, member, name, body⟩ := writes.exists_production rule held atoms alternative
  have smaller : sequenceMeaning W atoms ≤ (p.body.map g.language).prod := by
    rw [body, List.map_map]
    apply List.prod_le_prod'
    intro a appears
    have knows := complete.closed rule held atoms alternative a appears
    cases a with
    | terminal t =>
      rintro word rfl
      exact Grammar.mem_language_terminal ((writes.terminal_iff _).mpr ⟨t, knows, rfl⟩)
    | nonterminal n => exact below n knows
  exact name ▸ Grammar.prod_le_language member (smaller inside)

def derived (found : Gathered) (g : Grammar) : Reading := fun origin =>
  {word | ∀ n ∈ found.nonterminals, n.origin = origin → word ∈ g.language n.name}

theorem derived_le (n : Nonterminal) (gathered : n ∈ found.nonterminals) :
    derived found g n.origin ≤ g.language n.name :=
  fun _ inside => inside n gathered rfl

theorem Writes.iterations_le_derived (writes : Writes start found g)
    (complete : Complete b start found) :
    iterations b.naming.repeated (fun id => derived found g (.defined id)) ≤
      fun serial => derived found g (.generated serial) := by
  apply iterations_le
  intro serial item held
  rw [Reading.of_restrict]
  -- Its alternatives are the item and then itself, or nothing: what it derives is closed under both.
  have closed : item.meaning (derived found g) * derived found g (.generated serial) + 1 ≤
      derived found g (.generated serial) := by
    intro word inside n gathered origin
    obtain ⟨⟨n, alternatives⟩, member, rfl⟩ := List.mem_map.mp gathered
    have explains := complete.explained _ member
    have smaller := writes.choiceMeaning_le complete derived_le member
    cases explains with
    | defined => cases origin
    | generated held' means =>
      cases origin
      rw [held] at held'
      cases held'
      apply smaller
      rw [means]
      exact inside
  obtain ⟨item, none⟩ := add_le_iff.mp closed
  exact kstar_le_of_mul_le_right none item

/-- What the grammar derives satisfies the equations of the rules. -/
theorem Writes.solution_le_derived (writes : Writes start found g)
    (complete : Complete b start found) (extended : (ofDefinitions terminals rules).Extends b) :
    (ofDefinitions terminals rules).solution ≤ fun id => derived found g (.defined id) := by
  apply solution_le
  intro id word inside n gathered origin
  obtain ⟨⟨n, alternatives⟩, member, rfl⟩ := List.mem_map.mp gathered
  have explains := complete.explained _ member
  -- The repetitions in the alternatives are read as iterations, since only then the alternatives
  -- mean what the right side does. That makes them no larger than what the grammar derives.
  have iterates := iterates_iterations b.naming.repeated (fun id => derived found g (.defined id))
  have below : Reading.of (fun id => derived found g (.defined id)) (iterations b.naming.repeated
      fun id => derived found g (.defined id)) ≤ derived found g := by
    intro origin
    cases origin with
    | defined id => exact le_rfl
    | generated serial => exact writes.iterations_le_derived complete serial
  have smaller := writes.choiceMeaning_le complete
    (fun n gathered => (below n.origin).trans (derived_le n gathered)) member
  cases explains with
  | generated => cases origin
  | defined held means =>
    cases origin
    apply smaller
    rw [means _ iterates, extended.bindings_eq, meaning_bindings _ _ 0]
    rw [extended.definitions_eq] at held
    rw [rightSide, held] at inside
    exact inside

/-- The rules have a least solution, and the grammar that is made of a rule, at any time, derives
exactly the words of that solution. -/
theorem sentence_iff_mem_solution {id : String} (reached : (ofDefinitions terminals rules).Later b)
    (bound : b.findNonterminal id = .ok start) (made : b.grammar start = (b', .ok g)) :
    ∃ L, IsLeast {V | (ofDefinitions terminals rules).Solves V} L ∧
      ∀ word, g.Sentence word ↔ word ∈ L id := by
  obtain ⟨extended, faithful⟩ := reached.spec rfl
  obtain ⟨found, extended', complete, writes⟩ := grammar_spec faithful made
  have whole := extended.trans extended'
  have first : (ofDefinitions terminals rules).findNonterminal id = .ok start := by
    unfold findNonterminal find at bound ⊢
    rwa [extended.bindings_eq] at bound
  have origin := origin_of_findNonterminal first
  have solves := (ofDefinitions terminals rules).solution_solves
  refine ⟨_, (ofDefinitions terminals rules).solution_isLeast, fun word => ?_⟩
  have sentence : g.Sentence word ↔ word ∈ g.language start.name := by
    rw [← writes.start_eq]
    exact Iff.rfl
  rw [sentence]
  constructor
  · intro derives
    have iterates := iterates_iterations b'.naming.repeated (ofDefinitions terminals rules).solution
    have same := fun rule held =>
      (complete.explained rule held).choiceMeaning_eq whole solves iterates
    have means := writes.language_le_meaning complete same (a := .nonterminal start)
      complete.start_mem derives
    rw [Atom.meaning, origin] at means
    exact means
  · intro inside
    exact writes.solution_le_derived complete whole id inside start complete.start_mem origin

end TopDown.Notation.Rulebook

namespace TopDown.Sample

open Notation

theorem statements_sentence_iff : ∃ g, (statements.grammar statementsStart).2 = .ok g ∧
    ∃ L, IsLeast {V | statements.Solves V} L ∧ ∀ word, g.Sentence word ↔ word ∈ L "program" := by
  have some : (statements.grammar statementsStart).2.isOk = true := by decide +kernel
  rcases made : statements.grammar statementsStart with ⟨b, failure | g⟩
  · rw [made] at some
    cases some
  · exact ⟨g, rfl, Rulebook.sentence_iff_mem_solution .now rfl made⟩

end TopDown.Sample
