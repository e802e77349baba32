import TopDown.Proofs.Notation.Bodies

namespace TopDown.Notation

namespace Gathered

variable {g : Gathered} {m n : Nonterminal} {alternatives : List (List Atom)}

theorem terminalClash_ne_rules (rules : List Nonterminal) (earlier ts : List Terminal) :
    terminalClash rules earlier ts ≠ some (.rules m n) := by
  induction ts generalizing earlier with
  | nil => simp [terminalClash]
  | cons t rest ih =>
    unfold terminalClash
    split
    · simp
    · split
      · simp
      · exact ih _

theorem clash_eq_none_iff (nodup : g.nonterminals.Nodup) (terminals : g.terminals.Nodup) :
    g.clash = none ↔ ∀ x y, g.Knows x → g.Knows y → x.name = y.name → x = y := by
  constructor
  · intro calm x y first second same
    exact eq_of_name calm first second same
  · intro apart
    refine Option.or_eq_none_iff.mpr ⟨ruleClash_eq_none ?_, terminalClash_eq_none ?_ ?_⟩
    · refine nodup.imp_of_mem fun {m n} first second different same => different ?_
      exact Atom.nonterminal.inj (apart (.nonterminal m) (.nonterminal n) first second same)
    · refine terminals.imp_of_mem fun {t u} first second different same => different ?_
      exact Atom.terminal.inj (apart (.terminal t) (.terminal u) first second same)
    · intro n first t second same
      have equal := apart (.nonterminal n) (.terminal t) first second same
      cases equal

theorem nonterminals_add (g : Gathered) (n : Nonterminal) (alternatives : List (List Atom)) :
    (g.add n alternatives).nonterminals = g.nonterminals ++ [n] := by
  simp [nonterminals, rules_add]

end Gathered

namespace Rulebook

variable {b later : Rulebook} {g found : Gathered} {n start : Nonterminal} {a : Atom}
  {pending rest : List Nonterminal} {alternatives : List (List Atom)}

inductive Reaches (b : Rulebook) (start : Nonterminal) : Atom → Prop
  | start : Reaches b start (.nonterminal start)
  | body {n : Nonterminal} {alternatives : List (List Atom)} {side : List Atom} {a : Atom}
    (before : Reaches b start (.nonterminal n)) (kept : b.bodies.lookup n = some alternatives)
    (alternative : side ∈ alternatives) (inside : a ∈ side) : Reaches b start a

theorem Reaches.mono (reached : b.Reaches start a) (continues : b.Continues later) :
    later.Reaches start a := by
  induction reached with
  | start => exact .start
  | body _ kept alternative inside ih => exact ih.body (continues.keeps _ _ kept) alternative inside

theorem Reaches.inUse (reached : b.Reaches start a) (used : b.InUse (.nonterminal start)) :
    b.InUse a := by
  cases reached with
  | start => exact used
  | body _ kept alternative inside => exact .kept kept alternative inside

/-- What a visit that began with one nonterminal has gathered so far. -/
structure Survey (start : Nonterminal) (b : Rulebook) (pending : List Nonterminal) (g : Gathered) :
    Prop where
  kept : ∀ rule ∈ g.rules, b.bodies.lookup rule.1 = some rule.2
  closed : ∀ rule ∈ g.rules, ∀ atoms ∈ rule.2, ∀ a ∈ atoms, g.Meets pending a
  reached : ∀ a, g.Meets pending a → b.Reaches start a
  nodup : g.nonterminals.Nodup
  terminals_nodup : g.terminals.Nodup
  first : (g = ⟨[], []⟩ ∧ pending = [start]) ∨ ∃ rest, g.nonterminals = start :: rest

theorem Survey.initial (b : Rulebook) (start : Nonterminal) : Survey start b [start] ⟨[], []⟩ := by
  constructor
  · intro rule member
    cases member
  · intro rule member
    cases member
  · intro a met
    cases a with
    | terminal t => cases met
    | nonterminal n =>
      rcases met with gathered | due
      · cases gathered
      · rw [List.mem_singleton.mp due]
        exact .start
  · exact List.nodup_nil
  · exact List.nodup_nil
  · exact Or.inl ⟨rfl, rfl⟩

theorem Due.of_meets (due : Due g pending n rest)
    (met : (g.add n alternatives).Meets
      (pendingAfter (g.add n alternatives) alternatives rest) a) :
    g.Meets pending a ∨ ∃ side ∈ alternatives, a ∈ side := by
  cases a with
  | terminal t =>
    rcases Gathered.mem_terminals_add.mp met with before | inside
    · exact Or.inl before
    · exact Or.inr (List.mem_flatten.mp inside)
  | nonterminal m =>
    rcases met with gathered | later
    · rcases Gathered.mem_nonterminals_add.mp gathered with before | rfl
      · exact Or.inl (Or.inl before)
      · exact Or.inl (Or.inr (due.pending_of_mem m List.mem_cons_self))
    · rcases List.mem_append.mp later with fresh | left
      · rw [List.mem_reverse, List.mem_filter, mem_nonterminalsIn] at fresh
        exact Or.inr (List.mem_flatten.mp fresh.1)
      · exact Or.inl (Or.inr (due.pending_of_mem m (List.mem_cons_of_mem n left)))

theorem Survey.due_reached (survey : Survey start b pending g) (due : Due g pending n rest) :
    b.Reaches start (.nonterminal n) :=
  survey.reached (.nonterminal n) (Or.inr (due.pending_of_mem n List.mem_cons_self))

theorem Survey.step (survey : Survey start b pending g) (due : Due g pending n rest)
    (asked : (b.body n).2 = .ok alternatives) :
    Survey start (b.body n).1 (pendingAfter (g.add n alternatives) alternatives rest)
      (g.add n alternatives) := by
  have continues := Continues.body b n
  have kept := kept_of_body asked
  refine ⟨?_, due.meets_add survey.closed, ?_, ?_, Gathered.nodup_terminals_add
    survey.terminals_nodup, Or.inr ?_⟩
  · intro rule member
    rw [Gathered.rules_add] at member
    rcases List.mem_append.mp member with before | new
    · exact continues.keeps _ _ (survey.kept rule before)
    · rw [List.mem_singleton.mp new]
      exact kept
  · intro a met
    rcases due.of_meets met with before | ⟨side, alternative, inside⟩
    · exact (survey.reached a before).mono continues
    · exact .body ((survey.due_reached due).mono continues) kept alternative inside
  · rw [Gathered.nonterminals_add, ← List.concat_eq_append]
    exact survey.nodup.concat due.new
  · rw [Gathered.nonterminals_add]
    rcases survey.first with ⟨rfl, rfl⟩ | ⟨others, split⟩
    · have same := due.pending_of_mem n List.mem_cons_self
      rw [List.mem_singleton.mp same]
      exact ⟨[], rfl⟩
    · exact ⟨others ++ [n], by rw [split, List.cons_append]⟩

/-- The nonterminals and terminals that are reachable, each once, and the start before the others. -/
structure Collects (b : Rulebook) (start : Nonterminal) (found : Gathered) : Prop where
  first : ∃ rest, found.nonterminals = start :: rest
  nodup : found.nonterminals.Nodup
  terminals_nodup : found.terminals.Nodup
  knows_iff : ∀ a, found.Knows a ↔ b.Reaches start a
  kept : ∀ rule ∈ found.rules, b.bodies.lookup rule.1 = some rule.2

theorem Survey.collects (survey : Survey start b pending g)
    (visited : ∀ m ∈ pending, m ∈ g.nonterminals) : Collects b start g := by
  have first : ∃ rest, g.nonterminals = start :: rest := by
    rcases survey.first with ⟨rfl, rfl⟩ | first
    · have gathered := visited start (List.mem_singleton_self start)
      cases gathered
    · exact first
  have knows : ∀ a, g.Meets pending a → g.Knows a := by
    intro a met
    cases a with
    | terminal t => exact met
    | nonterminal m => exact met.elim id (visited m)
  refine ⟨first, survey.nodup, survey.terminals_nodup, fun a => ⟨fun known => ?_, fun reached => ?_⟩,
    survey.kept⟩
  · apply survey.reached
    cases a with
    | terminal t => exact known
    | nonterminal m => exact Or.inl known
  -- What has been gathered holds the start and, as the visit has settled, whatever its bodies hold.
  · induction reached with
    | start =>
      obtain ⟨others, split⟩ := first
      change start ∈ g.nonterminals
      rw [split]
      exact List.mem_cons_self
    | @body n alternatives side a _ kept alternative inside ih =>
      obtain ⟨rule, member, rfl⟩ := List.mem_map.mp ih
      have same := (survey.kept rule member).symm.trans kept
      rw [← Option.some.inj same] at alternative
      exact knows a (survey.closed rule member side alternative a inside)

namespace Collects

theorem exists_kept (collects : Collects b start found) (reached : b.Reaches start (.nonterminal n)) :
    ∃ alternatives, b.bodies.lookup n = some alternatives := by
  obtain ⟨rule, member, rfl⟩ := List.mem_map.mp ((collects.knows_iff (.nonterminal n)).mpr reached)
  exact ⟨rule.2, collects.kept rule member⟩

theorem clash_eq_none_iff (collects : Collects b start found) : found.clash = none ↔
    ∀ x y, b.Reaches start x → b.Reaches start y → x.name = y.name → x = y := by
  rw [Gathered.clash_eq_none_iff collects.nodup collects.terminals_nodup]
  simp only [collects.knows_iff]

theorem exists_clash {cause : NameClash} (collects : Collects b start found)
    (clash : found.clash = some cause) :
    ∃ x y, b.Reaches start x ∧ b.Reaches start y ∧ x ≠ y ∧ x.name = y.name := by
  by_contra none
  have calm := collects.clash_eq_none_iff.mpr fun x y first second same => by
    by_contra different
    exact none ⟨x, y, first, second, different, same⟩
  rw [clash] at calm
  cases calm

end Collects

end Rulebook

end TopDown.Notation
