import TopDown.Notation.Expr

namespace TopDown.Notation

/-- A rule as it is written. Without a name of its own, or with an empty one, it is named by its
identifier. -/
structure Definition where
  id : String
  name : Option String
  body : Expr

def Definition.ruleName (d : Definition) : String :=
  match d.name with
  | some name => if name.isEmpty then d.id else name
  | none => d.id

structure Rulebook where
  bindings : Bindings
  definitions : List (String × Expr)
  naming : Naming
  bodies : List (Nonterminal × List (List Atom))

namespace Rulebook

def globalScope : Scope := ⟨"__global", 0⟩

/-- Definitions come after terminals, and later ones hide earlier ones of the same identifier. -/
def ofDefinitions (terminals : List Terminal) (rules : List Definition) : Rulebook where
  bindings :=
    (rules.map fun d => (d.id, Rule.atom (.nonterminal ⟨.defined d.id, d.ruleName⟩))).reverse ++
      (terminals.map fun t => (t.id, Rule.atom (.terminal t))).reverse
  definitions := (rules.map fun d => (d.id, d.body)).reverse
  naming := ⟨globalScope, []⟩
  bodies := []

def find (b : Rulebook) (id : String) : Except RuleError Rule :=
  match b.bindings.lookup id with
  | some rule => .ok rule
  | none => .error (.unknownName id)

def findNonterminal (b : Rulebook) (id : String) : Except RuleError Nonterminal :=
  match b.find id with
  | .error e => .error e
  | .ok (.atom (.nonterminal n)) => .ok n
  | .ok _ => .error .noBody

def eval (b : Rulebook) (e : Expr) : Rulebook × Except RuleError Rule :=
  match e.eval b.bindings b.naming with
  | (naming, value) => ({ b with naming := naming }, value)

def define (b : Rulebook) (id : String) (e : Expr) : Rulebook × Except RuleError Unit :=
  match b.eval e with
  | (b, .error e) => (b, .error e)
  | (b, .ok rule) => ({ b with bindings := (id, rule) :: b.bindings }, .ok ())

/-- The rule of a nonterminal, before it is flattened. A repetition is its item and then itself, or
nothing. -/
def source (b : Rulebook) (n : Nonterminal) : Evaluated Rule :=
  match n.origin with
  | .defined id =>
    match b.definitions.lookup id with
    | some e => e.eval b.bindings ⟨⟨n.name, 0⟩, b.naming.repeated⟩
    | none => (b.naming, .error (.unknownName id))
  | .generated serial =>
    match b.naming.repeated[serial]? with
    | some item => (b.naming, .ok (.choice (.sequence item (.atom (.nonterminal n))) .nothing))
    | none => (b.naming, .error .noBody)

/-- Keeps what an evaluation has made; the scope is again what it was before. -/
def after (b : Rulebook) (naming : Naming) : Rulebook :=
  { b with naming := ⟨b.naming.scope, naming.repeated⟩ }

/-- The alternatives of a nonterminal. They are found when they are first asked for, and kept. -/
def body (b : Rulebook) (n : Nonterminal) : Rulebook × Except RuleError (List (List Atom)) :=
  match b.bodies.lookup n with
  | some alternatives => (b, .ok alternatives)
  | none =>
    match b.source n with
    | (naming, .error e) => (b.after naming, .error e)
    | (naming, .ok rule) =>
      match rule.flatten with
      | .error e => (b.after naming, .error e)
      | .ok alternatives =>
        ({ b.after naming with bodies := (n, alternatives) :: b.bodies }, .ok alternatives)

end Rulebook

end TopDown.Notation
