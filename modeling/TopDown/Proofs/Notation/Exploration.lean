import Mathlib.Algebra.GroupWithZero.Nat
import Mathlib.Algebra.Order.BigOperators.Group.List
import Mathlib.Algebra.Order.Group.Nat
import TopDown.Proofs.Notation.Distinct

namespace TopDown.Notation

/-- The most repetitions that definitions can make whose rules have not been visited. -/
def ahead (definitions : List (String × Expr)) (visited : List Nonterminal) : Nat :=
  (definitions.map fun d =>
    if .defined d.1 ∈ visited.map Nonterminal.origin then 0 else d.2.repetitions).sum

section Ahead

variable {definitions : List (String × Expr)} {visited : List Nonterminal} {n : Nonterminal}
  {id : String} {e : Expr}

theorem ahead_nil (definitions : List (String × Expr)) :
    ahead definitions [] = Expr.repetitionsEach (definitions.map (·.2)) := by
  induction definitions with
  | nil => rfl
  | cons d rest ih =>
    rw [List.map_cons, Expr.repetitionsEach, ← ih]
    simp [ahead]

theorem ahead_append_le (definitions : List (String × Expr)) (visited more : List Nonterminal) :
    ahead definitions (visited ++ more) ≤ ahead definitions visited := by
  apply List.sum_le_sum
  intro d _
  split
  · exact Nat.zero_le _
  · rename_i absent
    have before : .defined d.1 ∉ visited.map Nonterminal.origin := by
      intro before
      apply absent
      rw [List.map_append]
      exact List.mem_append_left _ before
    rw [if_neg before]

theorem ahead_visit (found : definitions.lookup id = some e)
    (new : .defined id ∉ visited.map Nonterminal.origin) (origin : n.origin = .defined id) :
    ahead definitions (visited ++ [n]) + e.repetitions ≤ ahead definitions visited := by
  -- The definition that is found does not count any more; the others count no more than before.
  induction definitions with
  | nil => cases found
  | cons d rest ih =>
    have later := ahead_append_le rest visited [n]
    simp only [ahead, List.map_cons, List.sum_cons] at ih later ⊢
    rw [List.lookup_cons] at found
    split at found
    · rename_i same
      obtain rfl := beq_iff_eq.mp same
      obtain rfl := Option.some.inj found
      rw [if_pos (by simp [origin]), if_neg new]
      omega
    · rename_i other
      have apart : id ≠ d.1 := by simpa using other
      have same : (.defined d.1 ∈ (visited ++ [n]).map Nonterminal.origin) ↔
          .defined d.1 ∈ visited.map Nonterminal.origin := by
        simp [origin, apart.symm]
      have rest := ih found
      simp only [same]
      omega

end Ahead

namespace Rulebook

variable {terminals : List Terminal} {rules : List Definition} {b c later : Rulebook}
  {n m start : Nonterminal} {g found : Gathered} {pending rest : List Nonterminal}
  {alternatives : List (List Atom)} {id name : String}

section Room

theorem lookup_of_bound
    (bound : (ofDefinitions terminals rules).Bound (.nonterminal ⟨.defined id, name⟩)) :
    (ofDefinitions terminals rules).bindings.lookup id =
      some (.atom (.nonterminal ⟨.defined id, name⟩)) := by
  obtain ⟨id', value, held, inside⟩ := bound
  rcases of_lookup held with ⟨d, _, _, rfl⟩ | ⟨t, _, rfl⟩
  · have same := List.mem_singleton.mp inside
    cases same
    exact held
  · cases List.mem_singleton.mp inside

theorem defined_of_bound
    (bound : (ofDefinitions terminals rules).Bound (.nonterminal ⟨.defined id, name⟩)) :
    id ∈ (ofDefinitions terminals rules).definitions.map Prod.fst := by
  obtain ⟨d, member, same⟩ := bound_nonterminal bound
  cases same
  simpa [ofDefinitions] using ⟨d, member, rfl⟩

theorem Orderly.eq_of_origin (orderly : Orderly (ofDefinitions terminals rules) b)
    (first : b.InUse (.nonterminal m)) (second : b.InUse (.nonterminal n))
    (same : m.origin = n.origin) : m = n := by
  obtain ⟨origin, name⟩ := m
  obtain ⟨_, name'⟩ := n
  obtain rfl := same
  cases origin with
  | defined id =>
    have held := lookup_of_bound (orderly.defined id name first)
    rw [lookup_of_bound (orderly.defined id name' second)] at held
    cases held
    rfl
  | generated serial => rw [orderly.name_eq serial name name' first second]

theorem length_made_le (b : Rulebook) (n : Nonterminal) : b.made n = [] ∨
    ∃ id e, n.origin = .defined id ∧ b.definitions.lookup id = some e ∧
      (b.made n).length ≤ e.repetitions := by
  unfold made
  split
  · rename_i id _ origin
    split
    · rename_i e found
      exact Or.inr ⟨id, e, origin, found, Expr.length_made_le b.bindings e _⟩
    · exact Or.inl rfl
  · exact Or.inl rfl

/-- What has been made and what can still be made are together no more than at the beginning, since
each defined rule is evaluated once at most. -/
def Room (b c : Rulebook) (g : Gathered) : Prop :=
  c.naming.repeated.length + ahead c.definitions g.nonterminals ≤
    b.naming.repeated.length + Expr.repetitionsEach (b.definitions.map (·.2))

theorem Room.begin (b : Rulebook) : Room b b ⟨[], []⟩ := by
  have all := ahead_nil b.definitions
  unfold Room
  rw [← all]
  exact Nat.le_refl _

theorem Room.step (room : Room b c g) (tour : Tour (ofDefinitions terminals rules) start c pending g)
    (due : Due g pending n rest) : Room b (c.body n).1 (g.add n alternatives) := by
  have length := length_body c n
  unfold Room at room ⊢
  rw [(Continues.body c n).definitions_eq, Gathered.nonterminals_add]
  rcases length_made_le c n with none | ⟨id, e, origin, held, few⟩
  · have shrinks := ahead_append_le c.definitions g.nonterminals [n]
    rw [none] at length
    simp only [List.length_nil] at length
    omega
  · have new : .defined id ∉ g.nonterminals.map Nonterminal.origin := by
      intro member
      obtain ⟨m, visited, same⟩ := List.mem_map.mp member
      have used := (tour.survey.due_reached due).inUse tour.used
      rw [tour.orderly.eq_of_origin (tour.inUse visited) used (same.trans origin.symm)] at visited
      exact due.new visited
    have shrinks := ahead_visit held new origin
    omega

theorem Tour.length_le (tour : Tour (ofDefinitions terminals rules) start c pending g) :
    g.rules.length ≤ c.definitions.length + c.naming.repeated.length := by
  have nodup : (g.nonterminals.map Nonterminal.origin).Nodup :=
    tour.survey.nodup.map_on fun m first n second same =>
      tour.orderly.eq_of_origin (tour.inUse first) (tour.inUse second) same
  have within : g.nonterminals.map Nonterminal.origin ⊆
      c.definitions.map (fun d => .defined d.1) ++
        (List.range c.naming.repeated.length).map Origin.generated := by
    intro origin member
    obtain ⟨⟨origin, name⟩, visited, rfl⟩ := List.mem_map.mp member
    have used := tour.inUse visited
    cases origin with
    | defined id =>
      have defined := defined_of_bound (tour.orderly.defined id name used)
      rw [← tour.orderly.definitions_eq] at defined
      obtain ⟨d, held, rfl⟩ := List.mem_map.mp defined
      exact List.mem_append_left _ (List.mem_map.mpr ⟨d, held, rfl⟩)
    | generated serial =>
      have bound := tour.orderly.bounded serial name used
      exact List.mem_append_right _ (List.mem_map.mpr ⟨serial, List.mem_range.mpr bound, rfl⟩)
  have few := (nodup.subperm within).length_le
  simpa [Gathered.nonterminals] using few

end Room

section Exploration

/-- The states in which bodies of what is reachable have been evaluated, in any order. -/
inductive Explores (b : Rulebook) (start : Nonterminal) : Rulebook → Prop
  | now : Explores b start b
  | body {c : Rulebook} {n : Nonterminal} (before : Explores b start c)
    (reached : c.Reaches start (.nonterminal n)) : Explores b start (c.body n).1

/-- No body of what is reachable fails. -/
def Unfailing (b : Rulebook) (start : Nonterminal) : Prop :=
  ∀ c, b.Explores start c → ∀ n, c.Reaches start (.nonterminal n) →
    ∃ alternatives, (c.body n).2 = .ok alternatives

theorem exists_visit (orderly : Orderly (ofDefinitions terminals rules) b)
    (used : b.InUse (.nonterminal start)) (unfailing : b.Unfailing start) :
    ∃ later found, b.visit b.visitBound [start] ⟨[], []⟩ = (later, .ok found) ∧
      Collects later start found := by
  let I : Rulebook → List Nonterminal → Gathered → Prop := fun c pending g =>
    Tour (ofDefinitions terminals rules) start c pending g ∧ Room b c g ∧ b.Explores start c
  have step : StepKeeps I := by
    intro c pending g n rest alternatives holds due asked
    obtain ⟨tour, room, explores⟩ := holds
    exact ⟨tour.step due asked, room.step tour due, explores.body (tour.survey.due_reached due)⟩
  have ended := visit_ends step b.visitBound ⟨.begin orderly used, .begin b, .now⟩
  generalize b.visit b.visitBound [start] ⟨[], []⟩ = result at ended
  cases ended with
  | settled holds visited => exact ⟨_, _, rfl, holds.1.survey.collects visited⟩
  | unsettled holds length =>
    -- It would have visited more nonterminals than there can be.
    obtain ⟨tour, room, _⟩ := holds
    have few := tour.length_le
    have definitions := tour.orderly.definitions_eq.trans orderly.definitions_eq.symm
    rw [length, visitBound, definitions] at few
    unfold Room at room
    dsimp only [List.length_nil] at few
    omega
  | failed holds due asked =>
    obtain ⟨tour, _, explores⟩ := holds
    obtain ⟨alternatives, found⟩ := unfailing _ explores _ (tour.survey.due_reached due)
    rw [found] at asked
    cases asked

end Exploration

section Sound

structure Sound (b : Rulebook) : Prop where
  values : b.bindings.Shaped
  rules : ∀ id e, b.definitions.lookup id = some e →
    e.sound (fun id => (b.bindings.lookup id).isSome) = true
  items : b.naming.Shaped

def Grounded (b : Rulebook) (n : Nonterminal) : Prop :=
  match n.origin with
  | .defined id => ∃ e, b.definitions.lookup id = some e
  | .generated serial => serial < b.naming.repeated.length

theorem Sound.exists_source (sound : b.Sound) (grounded : b.Grounded n) :
    ∃ naming rule, b.source n = (naming, .ok rule) ∧ rule.shaped = true ∧ naming.Shaped := by
  obtain ⟨origin, name⟩ := n
  cases origin with
  | defined id =>
    obtain ⟨e, held⟩ := grounded
    simp only [source, held]
    exact Expr.exists_eval sound.values (sound.rules id e held) sound.items
  | generated serial =>
    have bound : serial < b.naming.repeated.length := grounded
    have held := List.getElem?_eq_getElem bound
    refine ⟨_, _, by simp only [source, held]; rfl, ?_, sound.items⟩
    have item := sound.items _ (List.getElem_mem bound)
    simpa [Rule.shaped] using item

theorem Sound.body (sound : b.Sound) (grounded : b.Grounded n) :
    (∃ alternatives, (b.body n).2 = .ok alternatives) ∧ (b.body n).1.Sound := by
  cases kept : b.bodies.lookup n with
  | some alternatives =>
    rw [body_of_kept kept]
    exact ⟨⟨alternatives, rfl⟩, sound⟩
  | none =>
    obtain ⟨naming, rule, evaluated, whole, items⟩ := sound.exists_source grounded
    obtain ⟨alternatives, flat⟩ := Rule.flatten_of_shaped whole
    simp only [Rulebook.body, kept, evaluated, flat]
    exact ⟨⟨alternatives, rfl⟩, sound.values, sound.rules, items⟩

theorem grounded_of_inUse (orderly : Orderly (ofDefinitions terminals rules) b)
    (used : b.InUse (.nonterminal n)) : b.Grounded n := by
  obtain ⟨origin, name⟩ := n
  cases origin with
  | defined id =>
    have defined := defined_of_bound (orderly.defined id name used)
    rw [← orderly.definitions_eq] at defined
    obtain ⟨d, member, rfl⟩ := List.mem_map.mp defined
    cases held : b.definitions.lookup d.1 with
    | some e => exact ⟨e, held⟩
    | none => simpa using List.lookup_eq_none_iff.mp held d member
  | generated serial => exact orderly.bounded serial name used

theorem sound_ofDefinitions
    (sound : ∀ d ∈ rules, d.body.sound (fun id =>
      ((ofDefinitions terminals rules).bindings.lookup id).isSome) = true) :
    (ofDefinitions terminals rules).Sound := by
  constructor
  · intro id value held
    rcases of_lookup held with ⟨d, _, _, rfl⟩ | ⟨t, _, rfl⟩
    · rfl
    · rfl
  · intro id e held
    obtain ⟨d, rule, same⟩ := List.mem_map.mp (List.mem_reverse.mp (mem_of_lookup held))
    obtain ⟨_, rfl⟩ := Prod.mk.inj same
    exact sound d rule
  · intro item member
    cases member

theorem unfailing_of_sound
    (sound : ∀ d ∈ rules, d.body.sound (fun id =>
      ((ofDefinitions terminals rules).bindings.lookup id).isSome) = true)
    (found : (ofDefinitions terminals rules).findNonterminal id = .ok start) :
    (ofDefinitions terminals rules).Unfailing start := by
  have initial := sound_ofDefinitions sound
  have used := inUse_of_findNonterminal found
  have explored : ∀ c, (ofDefinitions terminals rules).Explores start c →
      Orderly (ofDefinitions terminals rules) c ∧ c.Sound ∧ c.InUse (.nonterminal start) := by
    intro c explores
    induction explores with
    | now => exact ⟨orderly_ofDefinitions terminals rules, initial, used⟩
    | @body c n _ reached ih =>
      obtain ⟨orderly, sound, used⟩ := ih
      have asked := reached.inUse used
      exact ⟨orderly.body asked, (sound.body (grounded_of_inUse orderly asked)).2, used.body n⟩
  intro c explores n reached
  obtain ⟨orderly, sound, used⟩ := explored c explores
  exact (sound.body (grounded_of_inUse orderly (reached.inUse used))).1

end Sound

section Exact

/-- If no reachable body fails, gathering ends, with bodies for all that is reachable. It finds a
clash exactly if two of the symbols that are reachable have one name; otherwise it returns them all,
each once and the start first. -/
theorem gather_exact (requests : List Request)
    (found : (asked terminals rules requests).findNonterminal id = .ok start)
    (unfailing : (asked terminals rules requests).Unfailing start) :
    ∃ later answer, (asked terminals rules requests).gather start = (later, answer) ∧
      (∀ n, later.Reaches start (.nonterminal n) →
        ∃ alternatives, later.bodies.lookup n = some alternatives) ∧
      ((∃ cause, answer = .error (.clash cause)) ↔
        ∃ x y, later.Reaches start x ∧ later.Reaches start y ∧ x ≠ y ∧ x.name = y.name) ∧
      ((∀ x y, later.Reaches start x → later.Reaches start y → x.name = y.name → x = y) →
        ∃ g, answer = .ok g ∧ Collects later start g ∧ (g.nonterminals.map (·.name)).Nodup) := by
  obtain ⟨later, g, visited, collects⟩ := exists_visit (orderly_asked terminals rules requests)
    (inUse_of_findNonterminal found) unfailing
  have calm := collects.clash_eq_none_iff
  cases clash : g.clash with
  | some cause =>
    refine ⟨later, .error (.clash cause), by simp only [gather, visited, clash],
      fun n => collects.exists_kept, ?_, ?_⟩
    · exact iff_of_true ⟨cause, rfl⟩ (collects.exists_clash clash)
    · intro apart
      rw [calm.mpr apart] at clash
      cases clash
  | none =>
    have apart := calm.mp clash
    refine ⟨later, .ok g, by simp only [gather, visited, clash], fun n => collects.exists_kept, ?_,
      fun _ => ⟨g, rfl, collects, ?_⟩⟩
    · refine iff_of_false ?_ ?_
      · rintro ⟨cause, clashes⟩
        cases clashes
      · rintro ⟨x, y, first, second, different, same⟩
        exact different (apart x y first second same)
    · refine collects.nodup.map_on fun m first n second same => ?_
      exact Atom.nonterminal.inj (Gathered.eq_of_name clash first second same)

end Exact

end Rulebook

end TopDown.Notation

namespace TopDown.Sample

open Notation

theorem statements_unfailing : statements.Unfailing statementsStart := by
  have sound : ∀ d ∈ statementRules, d.body.sound (fun id =>
      (statements.bindings.lookup id).isSome) = true := by decide +kernel
  have found : statements.findNonterminal "program" = .ok statementsStart := by decide +kernel
  exact Rulebook.unfailing_of_sound sound found

theorem statements_gather_exact :
    ∃ later g, statements.gather statementsStart = (later, .ok g) ∧
      Rulebook.Collects later statementsStart g ∧
      g.nonterminals.map (·.name) = ["program", "__gen_program_0", "statement", "print_statement",
        "print_arguments", "__gen_print_arguments_0", "value", "let_statement"] ∧
      g.terminals.map (·.name) = ["print", ";", ",", "NAME", "NUMBER", "let", "="] := by
  have found : statements.findNonterminal "program" = .ok statementsStart := by decide +kernel
  have computed : (statements.gather statementsStart).2.toOption.map
      (fun g => (g.nonterminals.map (·.name), g.terminals.map (·.name))) =
        some (["program", "__gen_program_0", "statement", "print_statement", "print_arguments",
          "__gen_print_arguments_0", "value", "let_statement"],
          ["print", ";", ",", "NAME", "NUMBER", "let", "="]) := by decide +kernel
  obtain ⟨later, answer, gathered, _, clashes, settles⟩ :=
    Rulebook.gather_exact [] found statements_unfailing
  change statements.gather statementsStart = (later, answer) at gathered
  rw [gathered] at computed
  cases answer with
  | error failure => cases computed
  | ok g =>
    obtain ⟨_, same, collects, _⟩ := settles fun x y first second same => by
      by_contra different
      obtain ⟨cause, clashed⟩ := clashes.mpr ⟨x, y, first, second, different, same⟩
      cases clashed
    cases same
    obtain ⟨names, terminals⟩ := Prod.mk.inj (Option.some.inj computed)
    exact ⟨later, g, gathered, collects, names, terminals⟩

end TopDown.Sample
