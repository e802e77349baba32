import TopDown.Proofs.Notation.Bodies
import TopDown.Sample

namespace TopDown.Notation

/-- A table and a parse are made of the grammar, without the rulebook. -/
inductive Request where
  | define (id : String) (e : Expr)
  | flatten (e : Expr)
  | body (id : String)
  | gather (id : String)
  | grammar (id : String)
  | table (id : String)
  | parse (id : String) (tokens : List Symbol)

namespace Rulebook

variable {b later last : Rulebook} {n m : Nonterminal} {alternatives : List (List Atom)}

def withNonterminal (b : Rulebook) (id : String) (ask : Nonterminal → Rulebook) : Rulebook :=
  match b.findNonterminal id with
  | .ok n => ask n
  | .error _ => b

def serve (b : Rulebook) : Request → Rulebook
  | .define id e => (b.define id e).1
  | .flatten e => (b.eval e).1
  | .body id => b.withNonterminal id fun n => (b.body n).1
  | .gather id => b.withNonterminal id fun n => (b.gather n).1
  | .grammar id | .table id | .parse id _ => b.withNonterminal id fun n => (b.grammar n).1

def serveAll (b : Rulebook) (requests : List Request) : Rulebook := requests.foldl serve b

def asked (terminals : List Terminal) (rules : List Definition) (requests : List Request) : Rulebook :=
  (ofDefinitions terminals rules).serveAll requests

/-- The states of a rulebook after any requests, and after any evaluation of a body on the way. -/
inductive Onward (b : Rulebook) : Rulebook → Prop
  | now : Onward b b
  | body {later : Rulebook} (before : Onward b later) (n : Nonterminal) : Onward b (later.body n).1
  | serve {later : Rulebook} (before : Onward b later) (r : Request) : Onward b (later.serve r)

section Serve

theorem serve_keeps {P : Rulebook → Prop}
    (bodies : ∀ b n, P b → b.InUse (.nonterminal n) → P (b.body n).1)
    (evals : ∀ b e, P b → P (b.eval e).1) (defines : ∀ b id e, P b → P (b.define id e).1)
    (r : Request) (holds : P b) : P (b.serve r) := by
  have asks : ∀ id, ∀ ask : Nonterminal → Rulebook,
      (∀ n, b.InUse (.nonterminal n) → P (ask n)) → P (b.withNonterminal id ask) := by
    intro id ask each
    unfold withNonterminal
    split
    · rename_i found
      exact each _ (inUse_of_findNonterminal found)
    · exact holds
  have gathers : ∀ n, b.InUse (.nonterminal n) → P (b.gather n).1 := by
    intro n used
    rw [fst_gather]
    exact visit_keeps_used bodies _ holds (by simpa using used)
  have makes : ∀ n, b.InUse (.nonterminal n) → P (b.grammar n).1 := by
    intro n used
    rw [fst_grammar]
    exact gathers n used
  cases r with
  | define id e => exact defines b id e holds
  | flatten e => exact evals b e holds
  | body id => exact asks id _ fun n used => bodies b n holds used
  | gather id => exact asks id _ gathers
  | grammar id => exact asks id _ makes
  | table id => exact asks id _ makes
  | parse id tokens => exact asks id _ makes

theorem serveAll_keeps {P : Rulebook → Prop}
    (bodies : ∀ b n, P b → b.InUse (.nonterminal n) → P (b.body n).1)
    (evals : ∀ b e, P b → P (b.eval e).1) (defines : ∀ b id e, P b → P (b.define id e).1)
    (requests : List Request) (holds : P b) : P (b.serveAll requests) := by
  induction requests generalizing b with
  | nil => exact holds
  | cons r rest ih => exact ih (serve_keeps bodies evals defines r holds)

end Serve

section Onward

theorem Continues.serve (b : Rulebook) (r : Request) : b.Continues (b.serve r) :=
  serve_keeps (fun c n continues _ => continues.trans (.body c n))
    (fun c e continues => continues.trans (.eval c e))
    (fun c id e continues => continues.trans (.define c id e)) r (.refl b)

theorem Onward.continues (onward : b.Onward later) : b.Continues later := by
  induction onward with
  | now => exact .refl b
  | body _ n ih => exact ih.trans (.body _ n)
  | serve _ r ih => exact ih.trans (.serve _ r)

theorem Onward.not_mem_made (onward : (b.body n).1.Onward later) (member : m ∈ later.made n) :
    m ∉ b.made n := by
  intro before
  -- Serials are never used again, though the names are.
  have grown := onward.continues.grows.length_le
  rw [length_body] at grown
  obtain ⟨i, bound, rfl⟩ := mem_made before
  obtain ⟨j, _, same⟩ := mem_made member
  have serials := Origin.generated.inj (congrArg Nonterminal.origin same)
  omega

/-- Whatever a rulebook has been asked for, the evaluation of a body restores the scope and makes
repetitions that are numbered from zero; a new body holds these and what is bound. A failure keeps no
body, and the next evaluation makes other repetitions. A body that has been found is found again,
whatever is asked for in between. -/
theorem body_atomic (b : Rulebook) (n : Nonterminal) :
    (b.body n).1.naming.scope = b.naming.scope ∧
    (b.body n).1.naming.repeated.length = b.naming.repeated.length + (b.made n).length ∧
    b.made n = (List.range (b.made n).length).map (fun i =>
      ⟨.generated (b.naming.repeated.length + i), "__gen_" ++ n.name ++ "_" ++ toString i⟩) ∧
    (∀ id alternatives, n.origin = .defined id → b.bodies.lookup n = none →
      (b.body n).2 = .ok alternatives →
        ∀ side ∈ alternatives, ∀ a ∈ side, b.Bound a ∨ ∃ m ∈ b.made n, a = .nonterminal m) ∧
    (∀ failure, (b.body n).2 = .error failure → (b.body n).1.bodies.lookup n = none ∧
      ∀ later, (b.body n).1.Onward later → ∀ m ∈ later.made n, m ∉ b.made n) ∧
    ∀ alternatives, (b.body n).2 = .ok alternatives →
      ∀ later, (b.body n).1.Onward later → later.body n = (later, .ok alternatives) := by
  refine ⟨scope_body b n, length_body b n, ?_, ?_,
    fun failure failed => ⟨body_of_error failed, ?_⟩, ?_⟩
  · simpa [Naming.upcoming, entry, repetitionName] using made_eq b n
  · intro id alternatives origin unasked found
    obtain ⟨_, name⟩ := n
    obtain rfl := origin
    have bound : b.bindings.Hold
        fun a => b.Bound a ∨ ∃ m ∈ b.made ⟨.defined id, name⟩, a = .nonterminal m :=
      fun id value held a inside => Or.inl ⟨id, value, held, inside⟩
    exact (forall_mem_body bound (fun m member => Or.inr ⟨m, member, rfl⟩) unasked found).1
  · exact fun later onward m member => onward.not_mem_made member
  · intro alternatives found later onward
    exact body_of_kept (onward.continues.keeps n alternatives (kept_of_body found))

end Onward

end Rulebook

end TopDown.Notation

namespace TopDown.Sample

open Notation

def openListRules : List Definition :=
  [⟨"list", none, .both (.apply .star (named ["ITEM"])) (.name "STOP")⟩]

def openList : Rulebook := .ofDefinitions [⟨"ITEM", "item"⟩] openListRules

def openListStart : Nonterminal := ⟨.defined "list", "list"⟩

theorem openList_body_atomic :
    (openList.body openListStart).2 = .error (.unknownName "STOP") ∧
    openList.made openListStart = [⟨.generated 0, "__gen_list_0"⟩] ∧
    (openList.body openListStart).1.naming.scope = openList.naming.scope ∧
    (openList.body openListStart).1.bodies.lookup openListStart = none ∧
    ∃ finished, (openList.body openListStart).1.Onward finished ∧
      (finished.body openListStart).2 =
        .ok [[.nonterminal ⟨.generated 1, "__gen_list_0"⟩, .terminal ⟨"ITEM", "item"⟩]] ∧
      finished.made openListStart = [⟨.generated 1, "__gen_list_0"⟩] ∧
      ∀ m ∈ finished.made openListStart, m ∉ openList.made openListStart := by
  obtain ⟨restored, _, _, _, retried, _⟩ := Rulebook.body_atomic openList openListStart
  have failed : (openList.body openListStart).2 = .error (.unknownName "STOP") := by
    decide +kernel
  obtain ⟨unkept, others⟩ := retried _ failed
  have onward := (Rulebook.Onward.now (b := (openList.body openListStart).1)).serve
    (.define "STOP" (.name "ITEM"))
  exact ⟨failed, by decide +kernel, restored, unkept, _, onward, by decide +kernel,
    by decide +kernel, others _ onward⟩

end TopDown.Sample
