import TopDown.Proofs.Notation.Failure
import TopDown.Proofs.Notation.Reachable
import TopDown.Proofs.Notation.Requests

namespace TopDown.Notation

variable {a : Atom}

theorem Naming.Adds.item {P : Atom → Prop} {n n' : Naming} {serial : Nat} {item : Rule}
    (adds : n.Adds P n') (new : n.repeated.length ≤ serial)
    (held : n'.repeated[serial]? = some item) : ∀ a ∈ item.atoms, P a := by
  obtain ⟨items, grown, each⟩ := adds
  rw [grown, List.getElem?_append_right new] at held
  exact each item (List.mem_of_getElem? held)

namespace Rulebook

variable {initial b later : Rulebook} {n m : Nonterminal} {alternatives : List (List Atom)}
  {fresh : List Nonterminal} {id name : String} {e : Expr}

section Use

def UsedOr (b : Rulebook) (fresh : List Nonterminal) (a : Atom) : Prop :=
  b.InUse a ∨ ∃ m ∈ fresh, a = .nonterminal m

def Bounded (b : Rulebook) : Prop :=
  ∀ serial name, b.InUse (.nonterminal ⟨.generated serial, name⟩) → serial < b.naming.repeated.length

theorem hold_usedOr (b : Rulebook) (fresh : List Nonterminal) : b.bindings.Hold (b.UsedOr fresh) :=
  fun id value held _ inside => Or.inl (.bound ⟨id, value, held, inside⟩)

theorem InUse.of_later (used : later.InUse a) (bounded : b.Bounded)
    (grows : b.naming.repeated <+: later.naming.repeated)
    (bound : ∀ a, later.Bound a → b.UsedOr fresh a)
    (kept : ∀ n alternatives, later.bodies.lookup n = some alternatives →
      ∀ side ∈ alternatives, ∀ a ∈ side, b.UsedOr fresh a)
    (items : ∀ serial name item, ⟨.generated serial, name⟩ ∈ fresh →
      later.naming.repeated[serial]? = some item → ∀ a ∈ item.atoms, b.UsedOr fresh a) :
    b.UsedOr fresh a := by
  induction used with
  | bound held => exact bound _ held
  | kept held alternative inside => exact kept _ _ held _ alternative _ inside
  | @repeated serial name item a _ held inside ih =>
    rcases ih with before | ⟨m, member, same⟩
    -- An earlier repetition still repeats what it did, since what is made later comes after it.
    · have short := bounded serial name before
      have same := List.prefix_iff_getElem?.mp grows serial short
      have earlier : b.naming.repeated[serial]? = some item := by
        rw [List.getElem?_eq_getElem short, ← same, held]
      exact Or.inl (.repeated before earlier inside)
    · obtain rfl := Atom.nonterminal.inj same
      exact items serial name item member held a inside

def brought (b : Rulebook) (n : Nonterminal) : List Nonterminal :=
  match (b.body n).2 with
  | .ok _ => b.made n
  | .error _ => []

theorem mem_brought (member : m ∈ b.brought n) :
    (∃ alternatives, (b.body n).2 = .ok alternatives) ∧ m ∈ b.made n := by
  unfold brought at member
  split at member
  · rename_i alternatives found
    exact ⟨⟨alternatives, found⟩, member⟩
  · cases member

theorem brought_of_ok (found : (b.body n).2 = .ok alternatives) : b.brought n = b.made n := by
  simp only [brought, found]

theorem new_of_mem_made (member : m ∈ b.made n) :
    (∃ id, n.origin = .defined id) ∧ b.bodies.lookup n = none := by
  unfold made at member
  split at member
  · rename_i id unasked origin
    exact ⟨⟨id, origin⟩, unasked⟩
  · cases member

theorem usedOr_new_body (unasked : b.bodies.lookup ⟨.defined id, name⟩ = none)
    (found : (b.body ⟨.defined id, name⟩).2 = .ok alternatives) :
    (∀ side ∈ alternatives, ∀ a ∈ side, b.UsedOr (b.brought ⟨.defined id, name⟩) a) ∧
      b.naming.Adds (b.UsedOr (b.brought ⟨.defined id, name⟩))
        (b.body ⟨.defined id, name⟩).1.naming := by
  refine forall_mem_body (hold_usedOr b _) (fun m member => ?_) unasked found
  rw [brought_of_ok found]
  exact Or.inr ⟨m, member, rfl⟩

theorem InUse.of_body (used : (b.body n).1.InUse a) (bounded : b.Bounded)
    (asked : b.InUse (.nonterminal n)) : b.UsedOr (b.brought n) a := by
  obtain ⟨origin, rule⟩ := n
  apply used.of_later bounded (Continues.body b _).grows
  · intro a held
    rw [Bound, bindings_body] at held
    exact Or.inl (.bound held)
  · intro m alternatives kept side alternative a inside
    rcases of_lookup_body kept with before | ⟨rfl, unasked, found⟩
    · exact Or.inl (.kept before alternative inside)
    · cases origin with
      | defined id => exact (usedOr_new_body unasked found).1 side alternative a inside
      | generated serial =>
        rcases mem_body_generated unasked found alternative inside with rfl | ⟨item, held, within⟩
        · exact Or.inl asked
        · exact Or.inl (.repeated asked held within)
  · intro serial name item member held
    obtain ⟨⟨alternatives, found⟩, made⟩ := mem_brought member
    obtain ⟨⟨id, rfl⟩, unasked⟩ := new_of_mem_made made
    obtain ⟨i, _, same⟩ := mem_made made
    have new := Origin.generated.inj (congrArg Nonterminal.origin same)
    exact (usedOr_new_body unasked found).2.item (by omega) held

theorem InUse.of_eval (used : (b.eval e).1.InUse a) (bounded : b.Bounded) : b.InUse a := by
  have same : b.UsedOr [] a := by
    apply used.of_later bounded (Continues.eval b e).grows
    · exact fun a held => Or.inl (.bound held)
    · exact fun n alternatives held side alternative a inside =>
        Or.inl (.kept held alternative inside)
    · intro serial name item member
      cases member
  simpa [UsedOr] using same

theorem define_cases (b : Rulebook) (id : String) (e : Expr) :
    (b.define id e).1 = (b.eval e).1 ∨ ∃ value, (e.eval b.bindings b.naming).2 = .ok value ∧
      (b.define id e).1 = { (b.eval e).1 with bindings := (id, value) :: b.bindings } := by
  rcases evaluated : e.eval b.bindings b.naming with ⟨naming, failure | value⟩
  · simp [define, Rulebook.eval, evaluated]
  · simp [define, Rulebook.eval, evaluated]

theorem InUse.of_define {value : Rule}
    (used : InUse { (b.eval e).1 with bindings := (id, value) :: b.bindings } a)
    (bounded : b.Bounded) (found : (e.eval b.bindings b.naming).2 = .ok value) :
    b.UsedOr (e.made b.bindings b.naming) a := by
  have made : ∀ m ∈ e.made b.bindings b.naming,
      b.UsedOr (e.made b.bindings b.naming) (.nonterminal m) := fun m member => Or.inr ⟨m, member, rfl⟩
  apply used.of_later bounded (Continues.eval b e).grows
  · rintro a ⟨id', value', held, inside⟩
    rw [List.lookup_cons] at held
    split at held
    · rw [← Option.some.inj held] at inside
      exact Expr.atoms_eval (hold_usedOr b _) (Prod.ext rfl found) made a inside
    · exact Or.inl (.bound ⟨id', value', held, inside⟩)
  · exact fun n alternatives held side alternative a inside =>
      Or.inl (.kept held alternative inside)
  · intro serial name item member held
    rw [(Expr.eval_makes b.bindings e b.naming).made_eq] at member
    obtain ⟨i, _, same⟩ := List.mem_map.mp member
    have new := Origin.generated.inj (congrArg Nonterminal.origin same)
    exact (Expr.eval_adds (hold_usedOr b _) made).item (by omega) held

end Use

section Orderly

/-- A name with this number has been given to a repetition: outside of rules, or in a body that is
kept. -/
def Taken (initial b : Rulebook) (s : Scope) : Prop :=
  (s.rule = globalScope.rule ∧ s.next < b.naming.scope.next) ∨
    ∃ id alternatives, initial.Bound (.nonterminal ⟨.defined id, s.rule⟩) ∧
      b.bodies.lookup ⟨.defined id, s.rule⟩ = some alternatives

/-- No two rules have one name, and none looks like a name that is made. -/
structure Named (initial : Rulebook) : Prop where
  distinct : ∀ id id' name, initial.Bound (.nonterminal ⟨.defined id, name⟩) →
    initial.Bound (.nonterminal ⟨.defined id', name⟩) → id = id'
  plain : ∀ id name, initial.Bound (.nonterminal ⟨.defined id, name⟩) →
    Symbol.startsWith "__" name = false

/-- Each rule in use has been there from the beginning, and each repetition in use has a name that
was taken for it. The repetitions that a failure leaves behind have the same names as later ones,
but nothing leads to them. -/
structure Orderly (initial b : Rulebook) : Prop where
  definitions_eq : b.definitions = initial.definitions
  rule_eq : b.naming.scope.rule = globalScope.rule
  defined : ∀ id name, b.InUse (.nonterminal ⟨.defined id, name⟩) →
    initial.Bound (.nonterminal ⟨.defined id, name⟩)
  taken : ∀ serial name, b.InUse (.nonterminal ⟨.generated serial, name⟩) →
    serial < b.naming.repeated.length ∧ ∃ s, initial.Taken b s ∧ name = repetitionName s
  name_eq : ∀ serial name name', b.InUse (.nonterminal ⟨.generated serial, name⟩) →
    b.InUse (.nonterminal ⟨.generated serial, name'⟩) → name = name'
  serial_eq : initial.Named → ∀ serial serial' name,
    b.InUse (.nonterminal ⟨.generated serial, name⟩) →
      b.InUse (.nonterminal ⟨.generated serial', name⟩) → serial = serial'

/-- A step brings repetitions into use that have the next numbers of a scope, and these numbers have
not been taken. -/
structure Brings (initial b later : Rulebook) (s : Scope) (count : Nat) : Prop where
  definitions_eq : later.definitions = b.definitions
  rule_eq : later.naming.scope.rule = b.naming.scope.rule
  length_le : b.naming.repeated.length + count ≤ later.naming.repeated.length
  used : ∀ m, later.InUse (.nonterminal m) → b.InUse (.nonterminal m) ∨ ∃ i < count,
    m = ⟨.generated (b.naming.repeated.length + i), repetitionName ⟨s.rule, s.next + i⟩⟩
  keeps : ∀ s, initial.Taken b s → initial.Taken later s
  takes : ∀ i < count, initial.Taken later ⟨s.rule, s.next + i⟩
  free : initial.Named → ∀ i < count, ¬ initial.Taken b ⟨s.rule, s.next + i⟩

namespace Orderly

theorem bounded (orderly : Orderly initial b) : b.Bounded :=
  fun serial name used => (orderly.taken serial name used).1

theorem name_ne (orderly : Orderly initial b) {serial : Nat} {s : Scope}
    (free : ¬ initial.Taken b s) : ¬ b.InUse (.nonterminal ⟨.generated serial, repetitionName s⟩) := by
  intro used
  obtain ⟨_, t, taken, same⟩ := orderly.taken serial _ used
  rw [← repetitionName_injective same] at taken
  exact free taken

theorem step {s : Scope} {count : Nat} (orderly : Orderly initial b)
    (brings : Brings initial b later s count) : Orderly initial later where
  definitions_eq := brings.definitions_eq.trans orderly.definitions_eq
  rule_eq := brings.rule_eq.trans orderly.rule_eq
  defined := by
    intro id name now
    rcases brings.used _ now with before | ⟨i, _, same⟩
    · exact orderly.defined id name before
    · cases same
  taken := by
    intro serial name now
    have length := brings.length_le
    rcases brings.used _ now with before | ⟨i, inside, same⟩
    · obtain ⟨bound, s, taken, named⟩ := orderly.taken serial name before
      exact ⟨by omega, s, brings.keeps s taken, named⟩
    · cases same
      exact ⟨by omega, _, brings.takes i inside, rfl⟩
  name_eq := by
    intro serial name name' first second
    rcases brings.used _ first with before | ⟨i, _, same⟩ <;>
      rcases brings.used _ second with before' | ⟨j, _, same'⟩
    -- New serials are beyond all that have been in use, and they tell the new names apart.
    · exact orderly.name_eq serial name name' before before'
    · have bound := orderly.bounded serial name before
      cases same'
      omega
    · have bound := orderly.bounded serial name' before'
      cases same
      omega
    · cases same
      obtain ⟨serials, names⟩ := Nonterminal.mk.inj same'
      have numbers := Origin.generated.inj serials
      obtain rfl : i = j := by omega
      exact names.symm
  serial_eq := by
    intro named serial serial' name first second
    rcases brings.used _ first with before | ⟨i, inside, same⟩ <;>
      rcases brings.used _ second with before' | ⟨j, inside', same'⟩
    -- A new name has not been taken, so nothing that was in use before has it.
    · exact orderly.serial_eq named serial serial' name before before'
    · cases same'
      exact absurd before (orderly.name_ne (brings.free named j inside'))
    · cases same
      exact absurd before' (orderly.name_ne (brings.free named i inside))
    · cases same
      obtain ⟨serials, names⟩ := Nonterminal.mk.inj same'
      have numbers := congrArg Scope.next (repetitionName_injective names)
      have places := Origin.generated.inj serials
      dsimp only at numbers
      omega

theorem not_global (named : initial.Named)
    (bound : initial.Bound (.nonterminal ⟨.defined id, name⟩)) : name ≠ globalScope.rule := by
  rintro rfl
  have plain := named.plain id _ bound
  exact absurd plain (by decide)

/-- What a body brings into use is numbered from zero, and has not been there: a rule that is
evaluated has no body yet. -/
theorem brings_body (orderly : Orderly initial b) (asked : b.InUse (.nonterminal n)) :
    Brings initial b (b.body n).1 ⟨n.name, 0⟩ (b.brought n).length where
  definitions_eq := (Continues.body b n).definitions_eq
  rule_eq := by rw [scope_body]
  length_le := by
    rw [length_body]
    unfold brought
    split <;> simp
  used := by
    intro m now
    rcases now.of_body orderly.bounded asked with before | ⟨m, member, same⟩
    · exact Or.inl before
    · obtain rfl := Atom.nonterminal.inj same
      obtain ⟨⟨alternatives, found⟩, made⟩ := mem_brought member
      obtain ⟨i, inside, rfl⟩ := mem_made made
      exact Or.inr ⟨i, by rwa [brought_of_ok found], by rw [Nat.zero_add]⟩
  keeps := by
    intro s taken
    unfold Taken
    rw [scope_body]
    rcases taken with outside | ⟨id, alternatives, bound, kept⟩
    · exact Or.inl outside
    · exact Or.inr ⟨id, alternatives, bound, (Continues.body b n).keeps _ _ kept⟩
  takes := by
    intro i inside
    obtain ⟨⟨alternatives, found⟩, made⟩ := mem_brought (List.getElem_mem inside)
    obtain ⟨⟨id, origin⟩, _⟩ := new_of_mem_made made
    obtain ⟨_, name⟩ := n
    obtain rfl := origin
    exact Or.inr ⟨id, alternatives, orderly.defined id name asked, kept_of_body found⟩
  free := by
    intro named i inside taken
    obtain ⟨_, made⟩ := mem_brought (List.getElem_mem inside)
    obtain ⟨⟨id, origin⟩, unasked⟩ := new_of_mem_made made
    obtain ⟨_, name⟩ := n
    obtain rfl := origin
    have bound := orderly.defined id name asked
    rcases taken with ⟨outside, _⟩ | ⟨id', alternatives, bound', kept⟩
    · exact not_global named bound outside
    · obtain rfl := named.distinct id id' name bound bound'
      rw [unasked] at kept
      cases kept

theorem body (orderly : Orderly initial b) (asked : b.InUse (.nonterminal n)) :
    Orderly initial (b.body n).1 :=
  orderly.step (orderly.brings_body asked)

theorem brings_outside (orderly : Orderly initial b) (e : Expr)
    (definitions_eq : later.definitions = b.definitions) (bodies_eq : later.bodies = b.bodies)
    (naming_eq : later.naming = (e.eval b.bindings b.naming).1)
    (used : ∀ m, later.InUse (.nonterminal m) → b.InUse (.nonterminal m) ∨
      m ∈ e.made b.bindings b.naming) :
    Brings initial b later b.naming.scope (e.made b.bindings b.naming).length := by
  have makes := Expr.eval_makes b.bindings e b.naming
  rw [← naming_eq] at makes
  constructor
  · exact definitions_eq
  · rw [makes.scope_eq]
  · exact makes.length_eq.ge
  · intro m now
    rcases used m now with before | member
    · exact Or.inl before
    · rw [makes.made_eq] at member
      obtain ⟨i, inside, same⟩ := List.mem_map.mp member
      exact Or.inr ⟨i, List.mem_range.mp inside, same.symm⟩
  · intro s taken
    unfold Taken
    rw [bodies_eq, makes.scope_eq]
    exact taken.imp (fun taken => ⟨taken.1, Nat.lt_add_right _ taken.2⟩) id
  · intro i inside
    refine Or.inl ⟨orderly.rule_eq, ?_⟩
    rw [makes.scope_eq]
    exact Nat.add_lt_add_left inside _
  · intro named i inside taken
    rcases taken with ⟨_, before⟩ | ⟨id, _, bound, _⟩
    · dsimp only at before
      omega
    · exact not_global named bound orderly.rule_eq

theorem eval (orderly : Orderly initial b) (e : Expr) : Orderly initial (b.eval e).1 :=
  orderly.step <| orderly.brings_outside e rfl rfl rfl fun _ now =>
    Or.inl (now.of_eval orderly.bounded)

theorem define (orderly : Orderly initial b) (id : String) (e : Expr) :
    Orderly initial (b.define id e).1 := by
  rcases define_cases b id e with same | ⟨value, found, same⟩
  · rw [same]
    exact orderly.eval e
  · rw [same]
    refine orderly.step (orderly.brings_outside e rfl rfl rfl fun m now => ?_)
    rcases now.of_define orderly.bounded found with before | ⟨m, member, same⟩
    · exact Or.inl before
    · obtain rfl := Atom.nonterminal.inj same
      exact Or.inr member

theorem serveAll (orderly : Orderly initial b) (requests : List Request) :
    Orderly initial (b.serveAll requests) :=
  serveAll_keeps (fun _ _ orderly asked => orderly.body asked) (fun _ e orderly => orderly.eval e)
    (fun _ id e orderly => orderly.define id e) requests orderly

theorem eq_of_name (orderly : Orderly initial b) (named : initial.Named)
    (first : b.InUse (.nonterminal m)) (second : b.InUse (.nonterminal n))
    (same : m.name = n.name) : m = n := by
  have plain : ∀ {id serial name}, b.InUse (.nonterminal ⟨.defined id, name⟩) →
      ¬ b.InUse (.nonterminal ⟨.generated serial, name⟩) := by
    intro id serial name rule repetition
    obtain ⟨_, s, _, rfl⟩ := orderly.taken serial name repetition
    have unlike := named.plain id _ (orderly.defined id _ rule)
    rw [startsWith_repetitionName] at unlike
    cases unlike
  obtain ⟨origin, name⟩ := m
  obtain ⟨origin', _⟩ := n
  obtain rfl := same
  cases origin with
  | defined id =>
    cases origin' with
    | defined id' =>
      rw [named.distinct id id' name (orderly.defined id name first)
        (orderly.defined id' name second)]
    | generated serial' => exact absurd second (plain first)
  | generated serial =>
    cases origin' with
    | defined id' => exact absurd first (plain second)
    | generated serial' => rw [orderly.serial_eq named serial serial' name first second]

end Orderly

end Orderly

section Tour

variable {start : Nonterminal} {pending rest : List Nonterminal} {g found : Gathered}

structure Tour (initial : Rulebook) (start : Nonterminal) (b : Rulebook)
    (pending : List Nonterminal) (g : Gathered) : Prop where
  survey : Survey start b pending g
  orderly : Orderly initial b
  used : b.InUse (.nonterminal start)

theorem Tour.begin (orderly : Orderly initial b) (used : b.InUse (.nonterminal start)) :
    Tour initial start b [start] ⟨[], []⟩ :=
  ⟨.initial b start, orderly, used⟩

theorem Tour.step (tour : Tour initial start b pending g) (due : Due g pending n rest)
    (asked : (b.body n).2 = .ok alternatives) : Tour initial start (b.body n).1
      (pendingAfter (g.add n alternatives) alternatives rest) (g.add n alternatives) :=
  ⟨tour.survey.step due asked, tour.orderly.body ((tour.survey.due_reached due).inUse tour.used),
    tour.used.body n⟩

theorem Tour.inUse (tour : Tour initial start b pending g) (member : n ∈ g.nonterminals) :
    b.InUse (.nonterminal n) :=
  (tour.survey.reached (.nonterminal n) (Or.inl member)).inUse tour.used

theorem gather_cases (b : Rulebook) (start : Nonterminal) :
    (∃ failure, (b.visit b.visitBound [start] ⟨[], []⟩).2 = .error failure ∧
      (b.gather start).2 = .error failure) ∨
    ∃ found, b.visit b.visitBound [start] ⟨[], []⟩ = ((b.gather start).1, .ok found) ∧
      ((∃ cause, found.clash = some cause ∧ (b.gather start).2 = .error (.clash cause)) ∨
        (found.clash = none ∧ (b.gather start).2 = .ok found)) := by
  rcases visited : b.visit b.visitBound [start] ⟨[], []⟩ with ⟨b', failure | found⟩
  · exact Or.inl ⟨failure, rfl, by simp only [gather, visited]⟩
  · cases clash : found.clash with
    | none =>
      have same : b.gather start = (b', .ok found) := by simp only [gather, visited, clash]
      exact Or.inr ⟨found, by rw [same], Or.inr ⟨clash, by rw [same]⟩⟩
    | some cause =>
      have same : b.gather start = (b', .error (.clash cause)) := by
        simp only [gather, visited, clash]
      exact Or.inr ⟨found, by rw [same], Or.inl ⟨cause, clash, by rw [same]⟩⟩

theorem Orderly.gather (orderly : Orderly initial b) (used : b.InUse (.nonterminal start)) :
    Orderly initial (b.gather start).1 ∧ (b.gather start).1.InUse (.nonterminal start) := by
  rw [fst_gather]
  have step : ∀ c m, Orderly initial c ∧ c.InUse (.nonterminal start) → c.InUse (.nonterminal m) →
      Orderly initial (c.body m).1 ∧ (c.body m).1.InUse (.nonterminal start) :=
    fun c m holds asked => ⟨holds.1.body asked, holds.2.body m⟩
  exact visit_keeps_used step _ ⟨orderly, used⟩ (by simpa using used)

theorem Orderly.ruleClash_eq_none {b' : Rulebook} {bound : Nat} (orderly : Orderly initial b)
    (used : b.InUse (.nonterminal start)) (named : initial.Named)
    (visited : b.visit bound [start] ⟨[], []⟩ = (b', .ok found)) :
    Gathered.ruleClash [] found.nonterminals = none := by
  have ended := visit_ends (fun _ _ _ _ _ _ tour due asked => Tour.step tour due asked) bound
    (Tour.begin orderly used)
  rw [visited] at ended
  cases ended with
  | settled tour _ =>
    apply Gathered.ruleClash_eq_none
    refine tour.survey.nodup.imp_of_mem fun first second different same => different ?_
    exact tour.orderly.eq_of_name named (tour.inUse first) (tour.inUse second) same

end Tour

section Rules

variable {terminals : List Terminal} {rules : List Definition}

theorem bound_nonterminal (bound : (ofDefinitions terminals rules).Bound (.nonterminal n)) :
    ∃ d ∈ rules, n = ⟨.defined d.id, d.ruleName⟩ := by
  obtain ⟨id, value, held, inside⟩ := bound
  rcases of_lookup held with ⟨d, member, rfl, rfl⟩ | ⟨t, _, rfl⟩
  · exact ⟨d, member, Atom.nonterminal.inj (List.mem_singleton.mp inside)⟩
  · cases List.mem_singleton.mp inside

theorem bound_of_inUse (used : (ofDefinitions terminals rules).InUse a) :
    (ofDefinitions terminals rules).Bound a := by
  cases used with
  | bound held => exact held
  | kept held => cases held
  | repeated _ held => cases held

theorem orderly_ofDefinitions (terminals : List Terminal) (rules : List Definition) :
    Orderly (ofDefinitions terminals rules) (ofDefinitions terminals rules) := by
  have none : ∀ {serial name},
      ¬ (ofDefinitions terminals rules).InUse (.nonterminal ⟨.generated serial, name⟩) := by
    intro serial name used
    obtain ⟨d, _, same⟩ := bound_nonterminal (bound_of_inUse used)
    cases same
  exact {
    definitions_eq := rfl
    rule_eq := rfl
    defined := fun id name used => bound_of_inUse used
    taken := fun serial name used => absurd used none
    name_eq := fun serial name name' used => absurd used none
    serial_eq := fun _ serial serial' name used => absurd used none }

theorem named_ofDefinitions (distinct : (rules.map Definition.ruleName).Nodup)
    (plain : ∀ d ∈ rules, Symbol.startsWith "__" d.ruleName = false) :
    (ofDefinitions terminals rules).Named := by
  constructor
  · intro id id' name first second
    obtain ⟨d, member, same⟩ := bound_nonterminal first
    obtain ⟨d', member', same'⟩ := bound_nonterminal second
    cases same
    obtain ⟨origin, names⟩ := Nonterminal.mk.inj same'
    rw [List.inj_on_of_nodup_map distinct member member' names]
    exact (Origin.defined.inj origin).symm
  · intro id name bound
    obtain ⟨d, member, same⟩ := bound_nonterminal bound
    cases same
    exact plain d member

theorem orderly_asked (terminals : List Terminal) (rules : List Definition)
    (requests : List Request) :
    Orderly (ofDefinitions terminals rules) (asked terminals rules requests) :=
  (orderly_ofDefinitions terminals rules).serveAll requests

/-- With distinct names for the rules, none of which looks like a name that is made, gathering never
finds two rules of one name: whatever has been asked for before, a repetition that is reachable has a
name that no rule has and nothing else that is reachable. -/
theorem gather_distinct (distinct : (rules.map Definition.ruleName).Nodup)
    (plain : ∀ d ∈ rules, Symbol.startsWith "__" d.ruleName = false) (requests : List Request)
    {start : Nonterminal} (found : (asked terminals rules requests).findNonterminal id = .ok start) :
    (∀ m n, ((asked terminals rules requests).gather start).2 ≠ .error (.clash (.rules m n))) ∧
    ∀ m serial, m.origin = .generated serial →
      ((asked terminals rules requests).gather start).1.Reaches start (.nonterminal m) →
        m.name ∉ rules.map Definition.ruleName ∧
        ∀ n, ((asked terminals rules requests).gather start).1.Reaches start (.nonterminal n) →
          n.name = m.name → n = m := by
  have named : (ofDefinitions terminals rules).Named := named_ofDefinitions distinct plain
  have orderly := orderly_asked terminals rules requests
  generalize asked terminals rules requests = b at found orderly
  have used := inUse_of_findNonterminal found
  constructor
  · intro m n clashed
    rcases gather_cases b start with
      ⟨failure, failed, answer⟩ | ⟨found, visited, ⟨cause, clash, answer⟩ | ⟨_, answer⟩⟩ <;>
      rw [answer] at clashed <;> cases clashed
    · rcases inRule_of_visit failed with other | other <;> cases other
    · have calm := orderly.ruleClash_eq_none used named visited
      rw [Gathered.clash, calm, Option.none_or] at clash
      exact Gathered.terminalClash_ne_rules _ _ _ clash
  · obtain ⟨orderly', used'⟩ := orderly.gather used
    rintro ⟨_, name⟩ serial rfl reached
    have first := reached.inUse used'
    constructor
    · intro member
      obtain ⟨d, rule, same⟩ := List.mem_map.mp member
      obtain ⟨_, s, _, rfl⟩ := orderly'.taken serial name first
      have unlike := plain d rule
      rw [same, startsWith_repetitionName] at unlike
      cases unlike
    · exact fun n other same => orderly'.eq_of_name named (other.inUse used') first same

end Rules

end Rulebook

end TopDown.Notation

namespace TopDown.Sample

open Notation

def openListRequests : List Request :=
  [.body "list", .define "STOP" (.apply .star (named ["ITEM"]))]

def usedList : Rulebook := .asked [⟨"ITEM", "item"⟩] openListRules openListRequests

theorem usedList_gather_distinct :
    (usedList.body openListStart).2 =
      .ok [[.nonterminal ⟨.generated 2, "__gen_list_0"⟩,
        .nonterminal ⟨.generated 1, "__gen___global_0"⟩]] ∧
    (∀ m n, (usedList.gather openListStart).2 ≠ .error (.clash (.rules m n))) ∧
    (usedList.gather openListStart).1.Reaches openListStart
      (.nonterminal ⟨.generated 2, "__gen_list_0"⟩) ∧
    "__gen_list_0" ∉ openListRules.map Definition.ruleName ∧
    ∀ n, (usedList.gather openListStart).1.Reaches openListStart (.nonterminal n) →
      n.name = "__gen_list_0" → n = ⟨.generated 2, "__gen_list_0"⟩ := by
  have kept : (usedList.gather openListStart).1.bodies.lookup openListStart =
      some [[.nonterminal ⟨.generated 2, "__gen_list_0"⟩,
        .nonterminal ⟨.generated 1, "__gen___global_0"⟩]] := by decide +kernel
  have reached := Rulebook.Reaches.start.body kept List.mem_cons_self List.mem_cons_self
  have distinct : (openListRules.map Definition.ruleName).Nodup := by decide
  have plain : ∀ d ∈ openListRules, Symbol.startsWith "__" d.ruleName = false := by decide +kernel
  have found : usedList.findNonterminal "list" = .ok openListStart := by decide +kernel
  obtain ⟨calm, names⟩ := Rulebook.gather_distinct distinct plain openListRequests found
  exact ⟨by decide +kernel, calm, reached, names _ 2 rfl reached⟩

end TopDown.Sample
