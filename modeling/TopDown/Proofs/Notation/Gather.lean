import Mathlib.Data.List.TakeWhile
import TopDown.Notation.Gather
import TopDown.Proofs.Declaration
import TopDown.Proofs.Notation.Equations

namespace TopDown

namespace Notation

namespace Gathered

def Knows (g : Gathered) : Atom → Prop
  | .terminal t => t ∈ g.terminals
  | .nonterminal n => n ∈ g.nonterminals

/-- The symbol is gathered, or it will be. -/
def Meets (g : Gathered) (pending : List Nonterminal) : Atom → Prop
  | .terminal t => t ∈ g.terminals
  | .nonterminal n => n ∈ g.nonterminals ∨ n ∈ pending

variable {g : Gathered} {n : Nonterminal} {t : Terminal} {alternatives : List (List Atom)}

section Clash

theorem apart_of_ruleClash {earlier ns : List Nonterminal} (calm : ruleClash earlier ns = none) :
    (∀ m ∈ earlier, ∀ n ∈ ns, m.name ≠ n.name) ∧ ns.Pairwise fun m n => m.name ≠ n.name := by
  induction ns generalizing earlier with
  | nil => simp
  | cons n rest ih =>
    unfold ruleClash at calm
    split at calm
    · cases calm
    · rename_i fresh
      obtain ⟨before, pairwise⟩ := ih calm
      have new : ∀ m ∈ earlier, m.name ≠ n.name := by simpa using fresh
      constructor
      · intro m member r inside
        rcases List.mem_cons.mp inside with rfl | inside
        · exact new m member
        · exact before m (by simp [member]) r inside
      · exact List.pairwise_cons.mpr ⟨fun r inside => before n (by simp) r inside, pairwise⟩

theorem apart_of_terminalClash {rules : List Nonterminal} {earlier ts : List Terminal}
    (calm : terminalClash rules earlier ts = none) :
    (∀ u ∈ earlier, ∀ t ∈ ts, u.name ≠ t.name) ∧ (ts.Pairwise fun u t => u.name ≠ t.name) ∧
      ∀ n ∈ rules, ∀ t ∈ ts, n.name ≠ t.name := by
  induction ts generalizing earlier with
  | nil => simp
  | cons t rest ih =>
    unfold terminalClash at calm
    split at calm
    · cases calm
    · rename_i fresh
      split at calm
      · cases calm
      · rename_i other
        obtain ⟨before, pairwise, apart⟩ := ih calm
        have new : ∀ u ∈ earlier, u.name ≠ t.name := by simpa using fresh
        have unlike : ∀ n ∈ rules, n.name ≠ t.name := by simpa using other
        refine ⟨?_, ?_, ?_⟩
        · intro u member r inside
          rcases List.mem_cons.mp inside with rfl | inside
          · exact new u member
          · exact before u (by simp [member]) r inside
        · exact List.pairwise_cons.mpr ⟨fun u inside => before t (by simp) u inside, pairwise⟩
        · intro n member r inside
          rcases List.mem_cons.mp inside with rfl | inside
          · exact unlike n member
          · exact apart n member r inside

theorem ruleClash_eq_none {earlier ns : List Nonterminal}
    (apart : (earlier ++ ns).Pairwise fun m n => m.name ≠ n.name) : ruleClash earlier ns = none := by
  induction ns generalizing earlier with
  | nil => rfl
  | cons n rest ih =>
    have fresh : (earlier.find? fun m => m.name == n.name) = none := by
      rw [List.find?_eq_none]
      intro m member
      have different := (List.pairwise_append.mp apart).2.2 m member n List.mem_cons_self
      simpa using different
    rw [ruleClash, fresh]
    rw [List.append_cons] at apart
    exact ih apart

theorem terminalClash_eq_none {rules : List Nonterminal} {earlier ts : List Terminal}
    (apart : (earlier ++ ts).Pairwise fun u t => u.name ≠ t.name)
    (unlike : ∀ n ∈ rules, ∀ t ∈ ts, n.name ≠ t.name) : terminalClash rules earlier ts = none := by
  induction ts generalizing earlier with
  | nil => rfl
  | cons t rest ih =>
    have fresh : (earlier.find? fun u => u.name == t.name) = none := by
      rw [List.find?_eq_none]
      intro u member
      have different := (List.pairwise_append.mp apart).2.2 u member t List.mem_cons_self
      simpa using different
    have other : (rules.find? fun n => n.name == t.name) = none := by
      rw [List.find?_eq_none]
      intro n member
      simpa using unlike n member t List.mem_cons_self
    rw [terminalClash, fresh, other]
    rw [List.append_cons] at apart
    exact ih apart fun n member u inside => unlike n member u (List.mem_cons_of_mem t inside)

theorem eq_of_name (calm : g.clash = none) {a b : Atom} (first : g.Knows a) (second : g.Knows b)
    (same : a.name = b.name) : a = b := by
  obtain ⟨rules, terminals⟩ := Option.or_eq_none_iff.mp calm
  obtain ⟨_, distinct⟩ := apart_of_ruleClash rules
  obtain ⟨_, distinct', apart⟩ := apart_of_terminalClash terminals
  cases a with
  | terminal t =>
    cases b with
    | terminal u =>
      have nodup : (g.terminals.map Terminal.name).Nodup := List.pairwise_map.mpr distinct'
      rw [List.inj_on_of_nodup_map nodup first second same]
    | nonterminal n => exact absurd same.symm (apart n second t first)
  | nonterminal m =>
    cases b with
    | terminal u => exact absurd same (apart m first u second)
    | nonterminal n =>
      have nodup : (g.nonterminals.map Nonterminal.name).Nodup := List.pairwise_map.mpr distinct
      rw [List.inj_on_of_nodup_map nodup first second same]

end Clash

section Add

theorem mem_addTerminal {u : Terminal} :
    u ∈ (g.addTerminal t).terminals ↔ u ∈ g.terminals ∨ u = t := by
  unfold addTerminal
  split
  · rename_i held
    constructor
    · exact Or.inl
    · rintro (inside | rfl)
      · exact inside
      · exact held
  · simp

theorem rules_addTerminal (g : Gathered) (t : Terminal) : (g.addTerminal t).rules = g.rules := by
  unfold addTerminal
  split <;> rfl

theorem foldl_spec (g : Gathered) (atoms : List Atom) :
    (atoms.foldl (fun g a =>
      match a with
      | .terminal t => g.addTerminal t
      | .nonterminal _ => g) g).rules = g.rules ∧
    ∀ t, t ∈ (atoms.foldl (fun g a =>
      match a with
      | .terminal t => g.addTerminal t
      | .nonterminal _ => g) g).terminals ↔ t ∈ g.terminals ∨ Atom.terminal t ∈ atoms := by
  induction atoms generalizing g with
  | nil => simp
  | cons a atoms ih =>
    rw [List.foldl_cons]
    cases a with
    | nonterminal n => simpa using ih g
    | terminal u =>
      obtain ⟨rules, terminals⟩ := ih (g.addTerminal u)
      refine ⟨rules.trans (g.rules_addTerminal u), fun t => ?_⟩
      rw [terminals, mem_addTerminal, List.mem_cons, Atom.terminal.injEq, or_assoc]

theorem rules_add (g : Gathered) (n : Nonterminal) (alternatives : List (List Atom)) :
    (g.add n alternatives).rules = g.rules ++ [(n, alternatives)] :=
  (foldl_spec _ alternatives.flatten).1

theorem mem_terminals_add : t ∈ (g.add n alternatives).terminals ↔
    t ∈ g.terminals ∨ Atom.terminal t ∈ alternatives.flatten :=
  (foldl_spec _ alternatives.flatten).2 t

theorem nodup_addTerminal (nodup : g.terminals.Nodup) : (g.addTerminal t).terminals.Nodup := by
  unfold addTerminal
  split
  · exact nodup
  · rename_i fresh
    refine List.nodup_append.mpr ⟨nodup, List.nodup_singleton t, ?_⟩
    intro u member v single same
    rw [List.mem_singleton.mp single] at same
    exact fresh (same ▸ member)

theorem nodup_terminals_add (nodup : g.terminals.Nodup) :
    (g.add n alternatives).terminals.Nodup := by
  unfold add
  refine List.foldlRecOn (motive := fun g : Gathered => g.terminals.Nodup) _ _ nodup ?_
  intro g nodup a _
  cases a with
  | terminal t => exact nodup_addTerminal nodup
  | nonterminal m => exact nodup

theorem mem_nonterminals_add {m : Nonterminal} :
    m ∈ (g.add n alternatives).nonterminals ↔ m ∈ g.nonterminals ∨ m = n := by
  simp [nonterminals, rules_add]

end Add

end Gathered

namespace Rulebook

variable {b b' later : Rulebook} {g found : Gathered} {n start : Nonterminal}
  {pending : List Nonterminal} {alternatives : List (List Atom)}

/-- All rules are gathered with alternatives of their own, and what these hold is met. -/
structure Gathering (b : Rulebook) (pending : List Nonterminal) (g : Gathered) : Prop where
  explained : ∀ rule ∈ g.rules, b.Explains rule.1 rule.2
  closed : ∀ rule ∈ g.rules, ∀ atoms ∈ rule.2, ∀ a ∈ atoms, g.Meets pending a

theorem mem_nonterminalsIn : n ∈ nonterminalsIn alternatives ↔
    Atom.nonterminal n ∈ alternatives.flatten := by
  unfold nonterminalsIn
  rw [List.mem_filterMap]
  constructor
  · intro ⟨a, inside, same⟩
    cases a with
    | terminal t => cases same
    | nonterminal m =>
      cases same
      exact inside
  · exact fun inside => ⟨_, inside, rfl⟩

structure Due (g : Gathered) (pending : List Nonterminal) (n : Nonterminal)
    (rest : List Nonterminal) : Prop where
  new : n ∉ g.nonterminals
  left : ∀ m ∈ pending, m ∈ g.nonterminals ∨ m ∈ n :: rest
  pending_of_mem : ∀ m ∈ n :: rest, m ∈ pending

theorem mem_of_dropWhile {m : Nonterminal} (member : m ∈ pending) :
    m ∈ g.nonterminals ∨ m ∈ pending.dropWhile (· ∈ g.nonterminals) := by
  rw [← List.takeWhile_append_dropWhile (p := fun m => decide (m ∈ g.nonterminals)) (l := pending)]
    at member
  rcases List.mem_append.mp member with visited | left
  · exact Or.inl (by simpa using List.mem_takeWhile_imp visited)
  · exact Or.inr left

theorem due_of_dropWhile {rest : List Nonterminal}
    (dropped : pending.dropWhile (· ∈ g.nonterminals) = n :: rest) : Due g pending n rest := by
  constructor
  · have head := List.head?_dropWhile_not (fun m => decide (m ∈ g.nonterminals)) pending
    rw [dropped] at head
    simpa using head
  · intro m member
    rw [← dropped]
    exact mem_of_dropWhile member
  · intro m member
    rw [← dropped] at member
    exact (List.dropWhile_sublist _).mem member

def pendingAfter (found : Gathered) (alternatives : List (List Atom)) (rest : List Nonterminal) :
    List Nonterminal :=
  ((nonterminalsIn alternatives).filter (· ∉ found.nonterminals)).reverse ++ rest

def StepKeeps (I : Rulebook → List Nonterminal → Gathered → Prop) : Prop :=
  ∀ ⦃b pending g n rest alternatives⦄, I b pending g → Due g pending n rest →
    (b.body n).2 = .ok alternatives → I (b.body n).1
      (pendingAfter (g.add n alternatives) alternatives rest) (g.add n alternatives)

/-- How a visit ends: nothing is left, or it has gone on as long as it may, or a body fails. -/
inductive Ends (I : Rulebook → List Nonterminal → Gathered → Prop) (most : Nat) :
    Rulebook × Except RuleError Gathered → Prop
  | settled {b : Rulebook} {pending : List Nonterminal} {g : Gathered} (holds : I b pending g)
    (visited : ∀ m ∈ pending, m ∈ g.nonterminals) : Ends I most (b, .ok g)
  | unsettled {b : Rulebook} {pending : List Nonterminal} {g : Gathered} (holds : I b pending g)
    (length : g.rules.length = most) : Ends I most (b, .error .unsettled)
  | failed {b : Rulebook} {pending : List Nonterminal} {g : Gathered} {n : Nonterminal}
    {rest : List Nonterminal} {failure : RuleError} (holds : I b pending g)
    (due : Due g pending n rest) (asked : (b.body n).2 = .error failure) :
    Ends I most ((b.body n).1, .error failure)

theorem visit_ends {I : Rulebook → List Nonterminal → Gathered → Prop} (step : StepKeeps I)
    (bound : Nat) (holds : I b pending g) :
    Ends I (g.rules.length + bound) (b.visit bound pending g) := by
  induction bound generalizing pending g b with
  | zero => exact .unsettled holds rfl
  | succ bound ih =>
    unfold visit
    split
    · rename_i none
      refine .settled holds fun m member => ?_
      have due := mem_of_dropWhile (g := g) member
      rw [none] at due
      exact due.resolve_right List.not_mem_nil
    · rename_i n rest dropped
      have due := due_of_dropWhile dropped
      rcases asked : b.body n with ⟨b₁, failure | alternatives⟩
      · have failed : Ends I (g.rules.length + (bound + 1)) ((b.body n).1, .error failure) :=
          .failed holds due (congrArg Prod.snd asked)
        rwa [asked] at failed
      · have next := step holds due (congrArg Prod.snd asked)
        rw [asked] at next
        have ended := ih next
        rw [Gathered.rules_add, List.length_append, List.length_singleton, Nat.add_assoc,
          Nat.add_comm 1] at ended
        exact ended

theorem Gathering.done (gathering : Gathering b pending g)
    (visited : ∀ m ∈ pending, m ∈ g.nonterminals) : ∀ rule ∈ g.rules, ∀ atoms ∈ rule.2,
      ∀ a ∈ atoms, g.Knows a := by
  intro rule member atoms alternative a inside
  have met := gathering.closed rule member atoms alternative a inside
  cases a with
  | terminal t => exact met
  | nonterminal m => exact met.elim id (visited m)

theorem Due.meets_add {rest : List Nonterminal} (due : Due g pending n rest)
    (closed : ∀ rule ∈ g.rules, ∀ atoms ∈ rule.2, ∀ a ∈ atoms, g.Meets pending a) :
    ∀ rule ∈ (g.add n alternatives).rules, ∀ atoms ∈ rule.2, ∀ a ∈ atoms,
      (g.add n alternatives).Meets (pendingAfter (g.add n alternatives) alternatives rest) a := by
  intro rule member atoms alternative a inside
  rw [Gathered.rules_add] at member
  rcases List.mem_append.mp member with before | new
  · have met := closed rule before atoms alternative a inside
    cases a with
    | terminal t => exact Gathered.mem_terminals_add.mpr (Or.inl met)
    | nonterminal m =>
      rcases met.elim Or.inl (due.left m) with held | later
      · exact Or.inl (Gathered.mem_nonterminals_add.mpr (Or.inl held))
      · rcases List.mem_cons.mp later with rfl | later
        · exact Or.inl (Gathered.mem_nonterminals_add.mpr (Or.inr rfl))
        · exact Or.inr (List.mem_append_right _ later)
  · obtain rfl := List.mem_singleton.mp new
    have appears : a ∈ alternatives.flatten := List.mem_flatten.mpr ⟨atoms, alternative, inside⟩
    cases a with
    | terminal t => exact Gathered.mem_terminals_add.mpr (Or.inr appears)
    | nonterminal m =>
      by_cases held : m ∈ (g.add n alternatives).nonterminals
      · exact Or.inl held
      · apply Or.inr
        apply List.mem_append_left
        simpa using ⟨mem_nonterminalsIn.mpr appears, held⟩

theorem Gathering.visit {rest : List Nonterminal} (gathering : Gathering b pending g)
    (due : Due g pending n rest) (extended : b.Extends later)
    (explains : later.Explains n alternatives) :
    Gathering later (pendingAfter (g.add n alternatives) alternatives rest)
      (g.add n alternatives) := by
  refine ⟨fun rule member => ?_, due.meets_add gathering.closed⟩
  rw [Gathered.rules_add] at member
  rcases List.mem_append.mp member with before | new
  · exact (gathering.explained rule before).mono extended
  · obtain rfl := List.mem_singleton.mp new
    exact explains

theorem visit_spec {bound : Nat} (faithful : b.Faithful)
    (visited : visit bound [start] ⟨[], []⟩ b = (b', .ok found)) :
    b.Extends b' ∧ (∃ pending', Gathering b' pending' found ∧
      ∀ m ∈ pending', m ∈ found.nonterminals) ∧ start ∈ found.nonterminals := by
  let I : Rulebook → List Nonterminal → Gathered → Prop := fun c pending g =>
    b.Extends c ∧ c.Faithful ∧ Gathering c pending g ∧ (start ∈ g.nonterminals ∨ start ∈ pending)
  have step : StepKeeps I := by
    intro c pending g n rest alternatives holds due asked
    obtain ⟨before, faithful, gathering, seen⟩ := holds
    obtain ⟨extended, faithful', explains⟩ := body_spec faithful n
    refine ⟨before.trans extended, faithful', gathering.visit due extended
      (explains alternatives asked), ?_⟩
    rcases seen.elim Or.inl (due.left start) with held | later
    · exact Or.inl (Gathered.mem_nonterminals_add.mpr (Or.inl held))
    · rcases List.mem_cons.mp later with rfl | later
      · exact Or.inl (Gathered.mem_nonterminals_add.mpr (Or.inr rfl))
      · exact Or.inr (List.mem_append_right _ later)
  have initial : Gathering b [start] ⟨[], []⟩ := by
    constructor
    · intro rule member
      cases member
    · intro rule member
      cases member
  have ended := visit_ends step bound
    ⟨Extends.refl b, faithful, initial, Or.inr (List.mem_singleton_self start)⟩
  rw [visited] at ended
  cases ended with
  | settled holds all =>
    obtain ⟨extended, _, gathering, seen⟩ := holds
    exact ⟨extended, ⟨_, gathering, all⟩, seen.elim id (all start)⟩

/-- All that can be reached from a nonterminal is gathered, and no two names are equal. -/
structure Complete (b : Rulebook) (start : Nonterminal) (g : Gathered) : Prop where
  explained : ∀ rule ∈ g.rules, b.Explains rule.1 rule.2
  closed : ∀ rule ∈ g.rules, ∀ atoms ∈ rule.2, ∀ a ∈ atoms, g.Knows a
  start_mem : start ∈ g.nonterminals
  calm : g.clash = none

theorem gather_spec (faithful : b.Faithful) (gathered : b.gather start = (b', .ok found)) :
    b.Extends b' ∧ Complete b' start found := by
  unfold gather at gathered
  split at gathered
  · cases gathered
  · rename_i visited
    split at gathered
    · cases gathered
    · rename_i calm
      cases gathered
      obtain ⟨extended, ⟨pending, gathering, all⟩, first⟩ := visit_spec faithful visited
      exact ⟨extended, gathering.explained, gathering.done all, first, calm⟩

structure Writes (start : Nonterminal) (found : Gathered) (g : Grammar) : Prop where
  start_eq : g.start = start.name
  terminal_iff : ∀ s, s ∈ g.terminals ↔ ∃ t ∈ found.terminals, t.name = s
  exists_production : ∀ rule ∈ found.rules, ∀ atoms ∈ rule.2,
    ∃ p ∈ g.productions, p.name = rule.1.name ∧ p.body = atoms.map Atom.name
  exists_rule : ∀ p ∈ g.productions, ∃ rule ∈ found.rules, ∃ atoms ∈ rule.2,
    p.name = rule.1.name ∧ p.body = atoms.map Atom.name

theorem mem_rules_declaration (found : Gathered) (start : Nonterminal)
    (rule : Symbol × List Symbol) : rule ∈ (found.declaration start).rules ↔
      ∃ r ∈ found.rules, ∃ atoms ∈ r.2, (r.1.name, atoms.map Atom.name) = rule := by
  simp [Gathered.declaration]

theorem Complete.writes {g : Grammar} (complete : Complete b start found)
    (made : (found.declaration start).grammar = .ok g) : Writes start found g := by
  obtain ⟨start_eq, productions, terminals, nonterminals⟩ := Declaration.of_grammar made
  have terminal_iff : ∀ s, s ∈ g.terminals ↔ ∃ t ∈ found.terminals, t.name = s := by
    intro s
    rw [terminals]
    simp [Declaration.terminalSet, Gathered.declaration]
  have nonterminal_iff : ∀ s, s ∈ g.nonterminals ↔ ∃ n ∈ found.nonterminals, n.name = s := by
    intro s
    rw [nonterminals]
    simp [Declaration.nonterminalSet, Gathered.declaration]
  -- A reserved name would have been refused, so no gathered symbol is named like the mark.
  have written : ∀ rule ∈ found.rules, ∀ atoms ∈ rule.2,
      Symbol.written (atoms.map Atom.name) = atoms.map Atom.name := by
    intro rule member atoms alternative
    apply Symbol.written_eq_self
    intro mark
    obtain ⟨a, inside, name⟩ := List.mem_map.mp mark
    have knows := complete.closed rule member atoms alternative a inside
    cases a with
    | terminal t => exact Grammar.terminal_ne_empty ((terminal_iff _).mpr ⟨t, knows, rfl⟩) name
    | nonterminal n =>
      exact Grammar.nonterminal_ne_empty ((nonterminal_iff _).mpr ⟨n, knows, rfl⟩) name
  refine ⟨start_eq, terminal_iff, ?_, ?_⟩
  · intro rule member atoms alternative
    have inside := (mem_rules_declaration found start _).mpr ⟨rule, member, atoms, alternative, rfl⟩
    obtain ⟨p, held, name, body⟩ := Declaration.exists_production inside
    rw [← productions] at held
    exact ⟨p, held, name, body.trans (written rule member atoms alternative)⟩
  · intro p held
    rw [productions] at held
    obtain ⟨_, inside, name, body⟩ := Declaration.exists_rule held
    obtain ⟨rule, member, atoms, alternative, rfl⟩ :=
      (mem_rules_declaration found start _).mp inside
    have same := body.trans (written rule member atoms alternative)
    exact ⟨rule, member, atoms, alternative, name, same⟩

theorem grammar_spec {g : Grammar} (faithful : b.Faithful) (made : b.grammar start = (b', .ok g)) :
    ∃ found, b.Extends b' ∧ Complete b' start found ∧ Writes start found g := by
  unfold grammar at made
  split at made
  · cases made
  · rename_i gathered
    split at made
    · cases made
    · rename_i declared
      cases made
      obtain ⟨extended, complete⟩ := gather_spec faithful gathered
      exact ⟨_, extended, complete, complete.writes declared⟩

theorem visit_keeps {P : Rulebook → Prop} (keeps : ∀ b n, P b → P (body b n).1) (bound : Nat)
    (pending : List Nonterminal) (g : Gathered) (holds : P b) : P (b.visit bound pending g).1 := by
  have ended : Ends (fun b _ _ => P b) (g.rules.length + bound) (b.visit bound pending g) :=
    visit_ends (fun _ _ _ _ _ _ holds _ _ => keeps _ _ holds) bound holds
  generalize b.visit bound pending g = result at ended
  cases ended with
  | settled holds _ => exact holds
  | unsettled holds _ => exact holds
  | failed holds _ _ => exact keeps _ _ holds

theorem fst_gather (b : Rulebook) (start : Nonterminal) :
    (b.gather start).1 = (b.visit b.visitBound [start] ⟨[], []⟩).1 := by
  unfold gather
  split
  · rename_i failed
    rw [failed]
  · rename_i found
    rw [found]
    split <;> rfl

theorem fst_grammar (b : Rulebook) (start : Nonterminal) :
    (b.grammar start).1 = (b.gather start).1 := by
  unfold grammar
  split
  · rename_i failed
    rw [failed]
  · rename_i found
    rw [found]
    split <;> rfl

end Rulebook

end Notation

end TopDown
