import TopDown.Proofs.Notation.Gather
import TopDown.Proofs.Notation.Naming

namespace TopDown.Notation

namespace Rulebook

variable {b later last : Rulebook} {n m : Nonterminal} {alternatives : List (List Atom)} {a : Atom}
  {P : Atom → Prop}

/-- The nonterminals that are made when a body is asked for. -/
def made (b : Rulebook) (n : Nonterminal) : List Nonterminal :=
  match b.bodies.lookup n, n.origin with
  | none, .defined id =>
    match b.definitions.lookup id with
    | some e => e.made b.bindings ⟨⟨n.name, 0⟩, b.naming.repeated⟩
    | none => []
  | _, _ => []

def entry (b : Rulebook) (n : Nonterminal) : Naming := ⟨⟨n.name, 0⟩, b.naming.repeated⟩

section Body

theorem source_spec (unasked : b.bodies.lookup n = none) :
    (b.source n).1.repeated.length = b.naming.repeated.length + (b.made n).length ∧
      b.made n = (b.entry n).upcoming (b.made n).length := by
  obtain ⟨origin, name⟩ := n
  cases origin with
  | generated serial =>
    have same : (b.source ⟨.generated serial, name⟩).1 = b.naming := by
      unfold source
      dsimp only
      split <;> rfl
    simp [same, made, unasked, Naming.upcoming]
  | defined id =>
    cases found : b.definitions.lookup id with
    | none => simp [source, made, unasked, found, Naming.upcoming]
    | some e =>
      simp only [source, made, unasked, found]
      have makes := Expr.eval_makes b.bindings e ⟨⟨name, 0⟩, b.naming.repeated⟩
      exact ⟨makes.length_eq, makes.made_eq⟩

theorem made_of_kept (kept : b.bodies.lookup n = some alternatives) : b.made n = [] := by
  simp [made, kept]

theorem made_eq (b : Rulebook) (n : Nonterminal) :
    b.made n = (b.entry n).upcoming (b.made n).length := by
  cases kept : b.bodies.lookup n with
  | none => exact (source_spec kept).2
  | some alternatives =>
    rw [made_of_kept kept]
    rfl

theorem length_body (b : Rulebook) (n : Nonterminal) :
    (b.body n).1.naming.repeated.length = b.naming.repeated.length + (b.made n).length := by
  rcases b.body_cases n with ⟨_, kept, same⟩ | ⟨unasked, _, same⟩ | ⟨unasked, _, _, _, _, same⟩
  · rw [same, made_of_kept kept, List.length_nil, Nat.add_zero]
  · rw [same]
    exact (source_spec unasked).1
  · rw [same]
    exact (source_spec unasked).1

theorem scope_body (b : Rulebook) (n : Nonterminal) :
    (b.body n).1.naming.scope = b.naming.scope := by
  rcases b.body_cases n with ⟨_, _, same⟩ | ⟨_, _, same⟩ | ⟨_, _, _, _, _, same⟩ <;> rw [same] <;> rfl

theorem body_of_error {failure : RuleError} (failed : (b.body n).2 = .error failure) :
    (b.body n).1.bodies.lookup n = none := by
  rcases b.body_cases n with ⟨_, _, same⟩ | ⟨unasked, _, same⟩ | ⟨_, _, _, _, _, same⟩
  · rw [same] at failed
    cases failed
  · rw [same]
    exact unasked
  · rw [same] at failed
    cases failed

theorem kept_of_body (found : (b.body n).2 = .ok alternatives) :
    (b.body n).1.bodies.lookup n = some alternatives := by
  rcases b.body_cases n with ⟨_, kept, same⟩ | ⟨_, _, same⟩ | ⟨_, _, _, _, _, same⟩
  · rw [same] at found ⊢
    rw [← Except.ok.inj found]
    exact kept
  · rw [same] at found
    cases found
  · rw [same] at found ⊢
    rw [← Except.ok.inj found]
    exact List.lookup_cons_self

theorem body_of_kept (kept : b.bodies.lookup n = some alternatives) :
    b.body n = (b, .ok alternatives) := by
  simp only [body, kept]

theorem of_lookup_body (kept : (b.body n).1.bodies.lookup m = some alternatives) :
    b.bodies.lookup m = some alternatives ∨
      (m = n ∧ b.bodies.lookup n = none ∧ (b.body n).2 = .ok alternatives) := by
  rcases b.body_cases n with ⟨_, _, same⟩ | ⟨_, _, same⟩ | ⟨unasked, _, found, _, _, same⟩ <;>
    rw [same] at kept ⊢
  · exact Or.inl kept
  · exact Or.inl kept
  · rw [List.lookup_cons] at kept
    split at kept
    · rename_i equal
      exact Or.inr ⟨beq_iff_eq.mp equal, unasked, congrArg Except.ok (Option.some.inj kept)⟩
    · exact Or.inl kept

theorem new_body (unasked : b.bodies.lookup n = none) (found : (b.body n).2 = .ok alternatives) :
    (b.body n).1.naming.repeated = (b.source n).1.repeated ∧
      ∃ rule, (b.source n).2 = .ok rule ∧ rule.flatten = .ok alternatives := by
  rcases b.body_cases n with ⟨_, kept, _⟩ | ⟨_, _, same⟩ | ⟨_, rule, _, evaluated, flat, same⟩
  · rw [unasked] at kept
    cases kept
  · rw [same] at found
    cases found
  · rw [same] at found ⊢
    cases found
    exact ⟨rfl, rule, evaluated, flat⟩

theorem ne_nil_of_body (unasked : b.bodies.lookup n = none)
    (found : (b.body n).2 = .ok alternatives) : alternatives ≠ [] := by
  obtain ⟨_, rule, _, flat⟩ := new_body unasked found
  exact Rule.flatten_ne_nil flat

theorem bindings_body (b : Rulebook) (n : Nonterminal) : (b.body n).1.bindings = b.bindings := by
  rcases b.body_cases n with ⟨_, _, same⟩ | ⟨_, _, same⟩ | ⟨_, _, _, _, _, same⟩ <;> rw [same] <;> rfl

theorem mem_made (member : m ∈ b.made n) : ∃ i < (b.made n).length,
    m = ⟨.generated (b.naming.repeated.length + i), repetitionName ⟨n.name, i⟩⟩ := by
  rw [made_eq] at member
  obtain ⟨i, inside, rfl⟩ := List.mem_map.mp member
  exact ⟨i, List.mem_range.mp inside, by simp [entry]⟩

theorem forall_mem_body {id name : String} (bound : b.bindings.Hold P)
    (made : ∀ m ∈ b.made ⟨.defined id, name⟩, P (.nonterminal m))
    (unasked : b.bodies.lookup ⟨.defined id, name⟩ = none)
    (found : (b.body ⟨.defined id, name⟩).2 = .ok alternatives) :
    (∀ side ∈ alternatives, ∀ a ∈ side, P a) ∧
      b.naming.Adds P (b.body ⟨.defined id, name⟩).1.naming := by
  obtain ⟨repeated, rule, evaluated, flat⟩ := new_body unasked found
  unfold Naming.Adds
  rw [repeated]
  cases held : b.definitions.lookup id with
  | none => simp [source, held] at evaluated
  | some e =>
    simp only [Rulebook.made, unasked, held] at made
    simp only [source, held] at evaluated ⊢
    have value := Expr.atoms_eval bound (Prod.ext rfl evaluated) made
    refine ⟨fun side alternative a inside => ?_, Expr.eval_adds bound made⟩
    exact value a (Rule.mem_atoms_of_flatten flat alternative inside)

theorem mem_body_generated {serial : Nat} {name : String} {side : List Atom}
    (unasked : b.bodies.lookup ⟨.generated serial, name⟩ = none)
    (found : (b.body ⟨.generated serial, name⟩).2 = .ok alternatives)
    (alternative : side ∈ alternatives) (inside : a ∈ side) :
    a = .nonterminal ⟨.generated serial, name⟩ ∨
      ∃ item, b.naming.repeated[serial]? = some item ∧ a ∈ item.atoms := by
  obtain ⟨_, rule, evaluated, flat⟩ := new_body unasked found
  cases held : b.naming.repeated[serial]? with
  | none => simp [source, held] at evaluated
  | some item =>
    simp only [source, held] at evaluated
    cases evaluated
    have there := Rule.mem_atoms_of_flatten flat alternative inside
    simp only [Rule.atoms, List.append_nil, List.mem_append, List.mem_singleton] at there
    rcases there with within | self
    · exact Or.inr ⟨item, rfl, within⟩
    · exact Or.inl self

end Body

section Continues

structure Continues (b later : Rulebook) : Prop where
  definitions_eq : later.definitions = b.definitions
  grows : b.naming.repeated <+: later.naming.repeated
  keeps : ∀ n alternatives, b.bodies.lookup n = some alternatives →
    later.bodies.lookup n = some alternatives

namespace Continues

theorem refl (b : Rulebook) : b.Continues b := ⟨rfl, List.prefix_rfl, fun _ _ => id⟩

theorem trans (first : b.Continues later) (second : later.Continues last) : b.Continues last where
  definitions_eq := second.definitions_eq.trans first.definitions_eq
  grows := first.grows.trans second.grows
  keeps n alternatives kept := second.keeps n alternatives (first.keeps n alternatives kept)

theorem body (b : Rulebook) (n : Nonterminal) : b.Continues (b.body n).1 := by
  have grows := b.source_grows n
  rcases b.body_cases n with ⟨_, _, same⟩ | ⟨_, _, same⟩ | ⟨unasked, _, _, _, _, same⟩ <;> rw [same]
  · exact refl b
  · exact ⟨rfl, grows, fun _ _ => id⟩
  · refine ⟨rfl, grows, fun m found kept => ?_⟩
    have other : (m == n) = false := by
      rw [beq_eq_false_iff_ne]
      rintro rfl
      rw [unasked] at kept
      cases kept
    rw [List.lookup_cons, other]
    exact kept

theorem eval (b : Rulebook) (e : Expr) : b.Continues (b.eval e).1 :=
  ⟨rfl, Expr.eval_grows b.bindings e b.naming, fun _ _ => id⟩

theorem define (b : Rulebook) (id : String) (e : Expr) : b.Continues (b.define id e).1 := by
  have evaluated := eval b e
  unfold Rulebook.define
  split <;> rename_i found <;> rw [found] at evaluated
  · exact evaluated
  · exact ⟨evaluated.definitions_eq, evaluated.grows, evaluated.keeps⟩

theorem item {serial : Nat} {item : Rule} (continues : b.Continues later)
    (held : b.naming.repeated[serial]? = some item) : later.naming.repeated[serial]? = some item := by
  obtain ⟨bound, rfl⟩ := List.getElem?_eq_some_iff.mp held
  exact List.prefix_iff_getElem?.mp continues.grows serial bound

end Continues

end Continues

section Use

def Bound (b : Rulebook) (a : Atom) : Prop :=
  ∃ id value, b.bindings.lookup id = some value ∧ a ∈ value.atoms

/-- What can still be met: what is bound, what a body holds that is kept, and what is repeated by
something that can be met. -/
inductive InUse (b : Rulebook) : Atom → Prop
  | bound {a : Atom} (held : b.Bound a) : InUse b a
  | kept {n : Nonterminal} {alternatives : List (List Atom)} {side : List Atom} {a : Atom}
    (held : b.bodies.lookup n = some alternatives) (alternative : side ∈ alternatives)
    (inside : a ∈ side) : InUse b a
  | repeated {serial : Nat} {name : String} {item : Rule} {a : Atom}
    (used : InUse b (.nonterminal ⟨.generated serial, name⟩))
    (held : b.naming.repeated[serial]? = some item) (inside : a ∈ item.atoms) : InUse b a

theorem InUse.body (used : b.InUse a) (n : Nonterminal) : (b.body n).1.InUse a := by
  have continues := Continues.body b n
  induction used with
  | bound held =>
    apply InUse.bound
    unfold Bound
    rwa [bindings_body]
  | kept held alternative inside => exact .kept (continues.keeps _ _ held) alternative inside
  | repeated _ held inside ih => exact .repeated ih (continues.item held) inside

theorem inUse_of_findNonterminal {id : String} (found : b.findNonterminal id = .ok n) :
    b.InUse (.nonterminal n) := by
  unfold findNonterminal find at found
  cases held : b.bindings.lookup id with
  | none => simp [held] at found
  | some value =>
    rw [held] at found
    dsimp only at found
    split at found
    · cases found
    · rename_i same
      cases found
      rw [Except.ok.inj same] at held
      exact .bound ⟨id, _, held, List.mem_singleton_self _⟩
    · cases found

theorem visit_keeps_used {P : Rulebook → Prop} {pending : List Nonterminal} {g : Gathered}
    (keeps : ∀ b n, P b → b.InUse (.nonterminal n) → P (b.body n).1) (bound : Nat) (holds : P b)
    (used : ∀ m ∈ pending, b.InUse (.nonterminal m)) : P (b.visit bound pending g).1 := by
  let I : Rulebook → List Nonterminal → Gathered → Prop :=
    fun b pending _ => P b ∧ ∀ m ∈ pending, b.InUse (.nonterminal m)
  have step : StepKeeps I := by
    intro b pending g n rest alternatives holds due asked
    obtain ⟨holds, used⟩ := holds
    have now := used n (due.pending_of_mem n List.mem_cons_self)
    refine ⟨keeps b n holds now, fun m member => ?_⟩
    rcases List.mem_append.mp member with fresh | later
    · rw [List.mem_reverse, List.mem_filter, mem_nonterminalsIn] at fresh
      obtain ⟨side, alternative, inside⟩ := List.mem_flatten.mp fresh.1
      exact .kept (kept_of_body asked) alternative inside
    · exact (used m (due.pending_of_mem m (List.mem_cons_of_mem n later))).body n
  have ended : Ends I (g.rules.length + bound) (b.visit bound pending g) :=
    visit_ends step bound ⟨holds, used⟩
  generalize b.visit bound pending g = result at ended
  cases ended with
  | settled holds _ => exact holds.1
  | unsettled holds _ => exact holds.1
  | failed holds due _ =>
    exact keeps _ _ holds.1 (holds.2 _ (due.pending_of_mem _ List.mem_cons_self))

end Use

end Rulebook

end TopDown.Notation
