import TopDown.Proofs.Declaration
import TopDown.Proofs.Table.Outcome

namespace TopDown

/-- A mark, or a name with two leading underscores that is not the name of a repetition. -/
def Symbol.Reserved (s : Symbol) : Prop :=
  s = empty ∨ s = endMark ∨ ("__".toList <+: s.toList ∧ ¬ "__gen_".toList <+: s.toList)

theorem Symbol.isReserved_iff {s : Symbol} : isReserved s = true ↔ Reserved s := by
  simp only [isReserved, Reserved, startsWith, Bool.or_eq_true, Bool.and_eq_true,
    Bool.not_eq_true', beq_iff_eq, or_assoc, ← List.isPrefixOf_iff_prefix, Bool.not_eq_true]

namespace Declaration

section Conditions

def IsNonterminal (d : Declaration) (s : Symbol) : Prop :=
  match d.nonterminals with
  | some names => s ∈ names
  | none => ∃ rule ∈ d.rules, rule.1 = s

def IsTerminal (d : Declaration) (s : Symbol) : Prop :=
  match d.terminals with
  | some names => s ∈ names
  | none => s ≠ Symbol.empty ∧ ¬ d.IsNonterminal s ∧ ∃ rule ∈ d.rules, s ∈ rule.2

def HasKind (d : Declaration) (s : Symbol) : SymbolKind → Prop
  | .terminal => d.IsTerminal s
  | .nonterminal => d.IsNonterminal s
  | .empty => s = Symbol.empty
  | .endMark => s = Symbol.endMark

def Knows (d : Declaration) (s : Symbol) : Prop :=
  s = Symbol.empty ∨ d.IsTerminal s ∨ d.IsNonterminal s

def Mixed (rule : Symbol × List Symbol) : Prop := 1 < rule.2.length ∧ Symbol.empty ∈ rule.2

def Declares (d : Declaration) (rule : Symbol × List Symbol) : Prop :=
  d.IsNonterminal rule.1 ∧ ∀ s ∈ rule.2, d.Knows s

def Unmixed (d : Declaration) : Prop := ∀ rule ∈ d.rules, ¬ Mixed rule

def Unreserved (d : Declaration) : Prop :=
  ∀ s, d.IsTerminal s ∨ d.IsNonterminal s → ¬ s.Reserved

def Apart (d : Declaration) : Prop := ∀ s, d.IsTerminal s → ¬ d.IsNonterminal s

/-- The rules use declared symbols only, and each is written once. -/
def Admits (d : Declaration) (rules : List (Symbol × List Symbol)) : Prop :=
  (∀ rule ∈ rules, d.Declares rule) ∧ rules.Nodup

def Started (d : Declaration) : Prop :=
  d.IsNonterminal d.start ∧ ∃ rule ∈ d.rules, rule.1 = d.start

structure Proper (d : Declaration) : Prop where
  unmixed : d.Unmixed
  unreserved : d.Unreserved
  apart : d.Apart
  declares : ∀ rule ∈ d.rules, d.Declares rule
  distinct : (d.rules.map marked).Nodup
  started : d.Started

def Stranger (d : Declaration) (rule : Symbol × List Symbol) (s : Symbol) : Prop :=
  (¬ d.IsNonterminal rule.1 ∧ s = rule.1) ∨
    (d.IsNonterminal rule.1 ∧ ∃ left right, rule.2 = left ++ s :: right ∧
      ¬ d.Knows s ∧ ∀ r ∈ left, d.Knows r)

/-- All symbols with a property, in ascending order, and at least one. -/
def Lists (names : List Symbol) (P : Symbol → Prop) : Prop :=
  names ≠ [] ∧ names.Pairwise (· < ·) ∧ ∀ s, s ∈ names ↔ P s

/-- The first condition that fails, and what is said of it. -/
inductive Refused (d : Declaration) : GrammarFault → Prop
  | mixedEmpty {before p after} (written : d.productions = before ++ p :: after)
    (earlier : ∀ q ∈ before, ¬ Mixed q.rule) (mixed : Mixed p.rule) : Refused d (.mixedEmpty p)
  | reserved {names} (unmixed : d.Unmixed)
    (lists : Lists names fun s => (d.IsTerminal s ∨ d.IsNonterminal s) ∧ s.Reserved) :
    Refused d (.reserved names)
  | bothKinds {names} (unmixed : d.Unmixed) (unreserved : d.Unreserved)
    (lists : Lists names fun s => d.IsTerminal s ∧ d.IsNonterminal s) :
    Refused d (.bothKinds names)
  | undeclared {before p after s} (unmixed : d.Unmixed) (unreserved : d.Unreserved)
    (apart : d.Apart) (written : d.productions = before ++ p :: after)
    (earlier : d.Admits (before.map Production.rule)) (stranger : d.Stranger p.rule s) :
    Refused d (.undeclared s p)
  | repeated {before p after q} (unmixed : d.Unmixed) (unreserved : d.Unreserved)
    (apart : d.Apart) (written : d.productions = before ++ p :: after)
    (earlier : d.Admits (before.map Production.rule)) (declares : d.Declares p.rule)
    (member : q ∈ before) (same : q.rule = p.rule) : Refused d (.repeated q p)
  | noStart (unmixed : d.Unmixed) (unreserved : d.Unreserved) (apart : d.Apart)
    (declares : ∀ rule ∈ d.rules, d.Declares rule) (distinct : (d.rules.map marked).Nodup)
    (missing : ¬ d.Started) : Refused d (.noStart d.start)

end Conditions

variable {d : Declaration} {g : Grammar} {s : Symbol} {rule : Symbol × List Symbol}
  {p q : Production} {ps earlier before after : List Production} {fault : GrammarFault}
  {t n : SymbolSet}

section Symbols

theorem mem_nonterminalSet : s ∈ d.nonterminalSet ↔ d.IsNonterminal s := by
  rw [nonterminalSet, SymbolSet.mem_ofList, map_name_productions, IsNonterminal]
  cases d.nonterminals with
  | some names => rfl
  | none => simp only [Option.getD_none, List.mem_map]

theorem mem_marked : s ∈ (marked rule).2 ↔ s ∈ rule.2 ∨ (rule.2 = [] ∧ s = Symbol.empty) := by
  cases symbols : rule.2 <;> simp [marked, symbols]

theorem mem_terminalSet : s ∈ d.terminalSet ↔ d.IsTerminal s := by
  rw [terminalSet, SymbolSet.mem_ofList, flatMap_symbols_productions, IsTerminal]
  cases d.terminals with
  | some names => rfl
  | none =>
    by_cases mark : s = Symbol.empty
    · simp [mark]
    · have written : s ∈ (d.rules.map marked).flatMap Prod.snd ↔ ∃ rule ∈ d.rules, s ∈ rule.2 := by
        rw [List.flatMap_map, List.mem_flatMap]
        simp only [mem_marked, mark, and_false, or_false]
      rw [Option.getD_none, List.mem_filter, written, and_comm, ← and_assoc]
      simp [mark, mem_nonterminalSet]

theorem declares_marked : d.Declares (marked rule) ↔ d.Declares rule := by
  refine and_congr Iff.rfl ⟨fun knows s member => knows s (mem_marked.mpr (Or.inl member)), ?_⟩
  intro knows s member
  rcases mem_marked.mp member with written | ⟨_, mark⟩
  · exact knows s written
  · exact Or.inl mark

theorem mixed_marked : Mixed (marked rule) ↔ Mixed rule := by
  cases symbols : rule.2 <;> simp [Mixed, marked, symbols]

theorem forall_productions {P : Symbol × List Symbol → Prop} :
    (∀ p ∈ d.productions, P p.rule) ↔ ∀ rule ∈ d.rules, P (marked rule) := by
  have same := d.map_rule_productions
  constructor
  · intro all rule member
    have held : marked rule ∈ d.productions.map Production.rule :=
      same ▸ List.mem_map_of_mem member
    obtain ⟨p, inside, written⟩ := List.mem_map.mp held
    exact written ▸ all p inside
  · intro all p member
    have held : p.rule ∈ d.rules.map marked := same ▸ List.mem_map_of_mem member
    obtain ⟨rule, inside, written⟩ := List.mem_map.mp held
    exact written ▸ all rule inside

end Symbols

section Names

theorem mixed_iff : Mixed p.rule ↔
    (p.symbols.contains Symbol.empty && p.symbols.length != 1) = true := by
  simp only [Mixed, Production.rule, Bool.and_eq_true, List.contains_iff_mem, bne_iff_ne]
  constructor
  · rintro ⟨long, mark⟩
    exact ⟨mark, by omega⟩
  · rintro ⟨mark, other⟩
    have := List.length_pos_of_mem mark
    exact ⟨by omega, mark⟩

theorem mixedFault_eq_none_iff : mixedFault d.productions = none ↔ d.Unmixed := by
  have each : (∀ p ∈ d.productions, ¬ Mixed p.rule) ↔ d.Unmixed := by
    rw [forall_productions (P := fun rule => ¬ Mixed rule), Unmixed]
    simp only [mixed_marked]
  rw [mixedFault, Option.map_eq_none_iff, List.find?_eq_none, ← each]
  simp only [mixed_iff]

theorem mixedFault_eq_some_iff : mixedFault ps = some fault ↔ ∃ before p after,
    ps = before ++ p :: after ∧ (∀ q ∈ before, ¬ Mixed q.rule) ∧ Mixed p.rule ∧
      fault = .mixedEmpty p := by
  rw [mixedFault, Option.map_eq_some_iff]
  simp only [List.find?_eq_some_iff_append, mixed_iff, Bool.not_eq_true, Bool.not_eq_true']
  constructor
  · rintro ⟨p, ⟨mixed, before, after, written, earlier⟩, rfl⟩
    exact ⟨before, p, after, written, earlier, mixed, rfl⟩
  · rintro ⟨before, p, after, written, earlier, mixed, rfl⟩
    exact ⟨p, ⟨mixed, before, after, written, earlier⟩, rfl⟩

theorem listing_eq_none_iff {bad : SymbolSet} {P : Symbol → Prop} (mem : ∀ s, s ∈ bad ↔ P s)
    (report : List Symbol → GrammarFault) :
    (if bad.toList.isEmpty then none else some (report bad.toList)) = none ↔ ∀ s, ¬ P s := by
  simp only [ite_eq_left_iff, reduceCtorEq, imp_false, not_not, List.isEmpty_iff,
    List.eq_nil_iff_forall_not_mem, SymbolSet.mem_toList, mem]

theorem listing_eq_some_iff {bad : SymbolSet} {P : Symbol → Prop} (mem : ∀ s, s ∈ bad ↔ P s)
    (report : List Symbol → GrammarFault) :
    (if bad.toList.isEmpty then none else some (report bad.toList)) = some fault ↔
      ∃ names, Lists names P ∧ fault = report names := by
  constructor
  · intro found
    split at found
    · cases found
    · rename_i nonempty
      cases found
      exact ⟨bad.toList, ⟨by simpa using nonempty, bad.ascending, mem⟩, rfl⟩
  · rintro ⟨names, ⟨nonempty, ascending, members⟩, rfl⟩
    have same : names = bad.toList := SymbolSet.eq_of_ascending ascending bad.ascending
      fun s => (members s).trans (mem s).symm
    rw [← same, if_neg (by simpa using nonempty)]

theorem mem_reservedNames : s ∈ (d.terminalSet.union d.nonterminalSet).filter (Symbol.isReserved ·) ↔
    (d.IsTerminal s ∨ d.IsNonterminal s) ∧ s.Reserved := by
  rw [SymbolSet.mem_filter, SymbolSet.mem_union, mem_terminalSet, mem_nonterminalSet,
    Symbol.isReserved_iff]

theorem mem_sharedNames : s ∈ d.terminalSet.filter (fun s => s ∈ d.nonterminalSet) ↔
    d.IsTerminal s ∧ d.IsNonterminal s := by
  rw [SymbolSet.mem_filter, decide_eq_true_iff, mem_terminalSet, mem_nonterminalSet]

theorem reservedFault_eq_none_iff :
    reservedFault d.terminalSet d.nonterminalSet = none ↔ d.Unreserved := by
  simp only [Unreserved, ← not_and]
  exact listing_eq_none_iff (fun _ => mem_reservedNames) .reserved

theorem reservedFault_eq_some_iff :
    reservedFault d.terminalSet d.nonterminalSet = some fault ↔ ∃ names,
      Lists names (fun s => (d.IsTerminal s ∨ d.IsNonterminal s) ∧ s.Reserved) ∧
        fault = .reserved names :=
  listing_eq_some_iff (fun _ => mem_reservedNames) .reserved

theorem kindFault_eq_none_iff :
    kindFault d.terminalSet d.nonterminalSet = none ↔ d.Apart := by
  simp only [Apart, ← not_and]
  exact listing_eq_none_iff (fun _ => mem_sharedNames) .bothKinds

theorem kindFault_eq_some_iff :
    kindFault d.terminalSet d.nonterminalSet = some fault ↔ ∃ names,
      Lists names (fun s => d.IsTerminal s ∧ d.IsNonterminal s) ∧ fault = .bothKinds names :=
  listing_eq_some_iff (fun _ => mem_sharedNames) .bothKinds

end Names

section Rules

def faultAt (terminals nonterminals : SymbolSet) (earlier : List Production) (p : Production) :
    Option GrammarFault :=
  (undeclaredFault terminals nonterminals p).or
    ((earlier.find? fun q => q.sameRule p).map fun q => .repeated q p)

theorem ruleFault_cons : ruleFault t n earlier (p :: ps) =
    (faultAt t n earlier p).or (ruleFault t n (earlier ++ [p]) ps) := by
  rw [ruleFault, faultAt, Option.or_assoc]

theorem ruleFault_eq_some_iff : ruleFault t n earlier ps = some fault ↔ ∃ before p after,
    ps = before ++ p :: after ∧ ruleFault t n earlier before = none ∧
      faultAt t n (earlier ++ before) p = some fault := by
  -- A rule without a fault joins the earlier ones, so the induction is over all of these.
  induction ps generalizing earlier with
  | nil => simp [ruleFault]
  | cons r rest ih =>
    rw [ruleFault_cons, Option.or_eq_some_iff, ih]
    constructor
    · rintro (here | ⟨sound, before, p, after, rfl, free, there⟩)
      · exact ⟨[], r, rest, rfl, rfl, by simpa using here⟩
      · refine ⟨r :: before, p, after, rfl, ?_, by simpa using there⟩
        rw [ruleFault_cons, sound, free, Option.or_none]
    · rintro ⟨before, p, after, written, free, found⟩
      cases before with
      | nil =>
        cases written
        exact Or.inl (by simpa using found)
      | cons head tail =>
        cases written
        rw [ruleFault_cons, Option.or_eq_none_iff] at free
        exact Or.inr ⟨free.1, tail, p, after, rfl, free.2, by simpa using found⟩

theorem undeclaredFault_eq_none_iff :
    undeclaredFault d.terminalSet d.nonterminalSet p = none ↔ d.Declares p.rule := by
  simp only [Declares, Knows, ← mem_terminalSet, ← mem_nonterminalSet]
  exact ⟨declared_of_undeclaredFault, fun ⟨name, symbols⟩ => undeclaredFault_eq_none name symbols⟩

theorem undeclaredFault_eq_some_iff :
    undeclaredFault d.terminalSet d.nonterminalSet p = some fault ↔
      ∃ s, d.Stranger p.rule s ∧ fault = .undeclared s p := by
  have unknown : ∀ s, (s ≠ Symbol.empty && !decide (s ∈ d.terminalSet) &&
      !decide (s ∈ d.nonterminalSet)) = true ↔ ¬ d.Knows s := by
    intro s
    simp [Knows, mem_terminalSet, mem_nonterminalSet, and_assoc]
  simp only [undeclaredFault, Stranger, ← mem_nonterminalSet]
  split
  · rename_i name
    simp only [Option.map_eq_some_iff, List.find?_eq_some_iff_append, unknown,
      Bool.not_eq_true', ← Bool.not_eq_true, not_not, Production.rule, name, not_true_eq_false,
      false_and, false_or, true_and]
    constructor
    · rintro ⟨s, ⟨stranger, left, right, written, known⟩, rfl⟩
      exact ⟨s, ⟨left, right, written, stranger, known⟩, rfl⟩
    · rintro ⟨s, ⟨left, right, written, stranger, known⟩, rfl⟩
      exact ⟨s, ⟨stranger, left, right, written, known⟩, rfl⟩
  · rename_i name
    simp [Production.rule, name, eq_comm]

theorem ruleFault_eq_none_iff : ruleFault d.terminalSet d.nonterminalSet [] ps = none ↔
    d.Admits (ps.map Production.rule) := by
  rw [Admits, List.forall_mem_map, Production.nodup_rules_iff]
  simp only [← undeclaredFault_eq_none_iff]
  constructor
  · intro free
    obtain ⟨declared, _, distinct⟩ := ruleFault_eq_none free
    exact ⟨declared, distinct⟩
  · intro ⟨declared, distinct⟩
    exact ruleFault_of_distinct declared (fun q before => absurd before List.not_mem_nil) distinct

theorem find?_sameRule_iff (distinct : (ps.map Production.rule).Nodup) :
    (ps.find? fun q => q.sameRule p) = some q ↔ q ∈ ps ∧ q.rule = p.rule := by
  -- Each rule is there once, so the first match is the only one.
  have same : ∀ r : Production, r.sameRule p = true ↔ r.rule = p.rule := by
    intro r
    rw [Production.sameRule_iff, Production.rule, Production.rule, Prod.mk.injEq]
  constructor
  · intro found
    have repeats := List.find?_some found
    exact ⟨List.mem_of_find?_eq_some found, (same q).mp repeats⟩
  · rintro ⟨member, repeats⟩
    have some : (ps.find? fun q => q.sameRule p).isSome :=
      List.find?_isSome.mpr ⟨q, member, (same q).mpr repeats⟩
    obtain ⟨r, found⟩ := Option.isSome_iff_exists.mp some
    have other := List.find?_some found
    rw [found, List.inj_on_of_nodup_map distinct (List.mem_of_find?_eq_some found) member
      (((same r).mp other).trans repeats.symm)]

theorem faultAt_eq_some_iff (distinct : (before.map Production.rule).Nodup) :
    faultAt d.terminalSet d.nonterminalSet before p = some fault ↔
      (∃ s, d.Stranger p.rule s ∧ fault = .undeclared s p) ∨
        (d.Declares p.rule ∧ ∃ q ∈ before, q.rule = p.rule ∧ fault = .repeated q p) := by
  rw [faultAt, Option.or_eq_some_iff, undeclaredFault_eq_some_iff, undeclaredFault_eq_none_iff,
    Option.map_eq_some_iff]
  simp only [find?_sameRule_iff distinct, and_assoc, eq_comm]

theorem admits_rules_iff : d.Admits (d.productions.map Production.rule) ↔
    (∀ rule ∈ d.rules, d.Declares rule) ∧ (d.rules.map marked).Nodup := by
  rw [d.map_rule_productions, Admits, List.forall_mem_map]
  simp only [declares_marked]

theorem startFault_eq_none_iff (declares : ∀ rule ∈ d.rules, d.Declares rule) :
    startFault d.start d.productions = none ↔ d.Started := by
  constructor
  · intro free
    obtain ⟨p, member, name⟩ := defined_of_startFault free
    obtain ⟨rule, written, named, _⟩ := exists_rule member
    have first : rule.1 = d.start := named.symm.trans name
    exact ⟨first ▸ (declares rule written).1, rule, written, first⟩
  · intro ⟨_, rule, written, name⟩
    obtain ⟨p, member, named, _⟩ := exists_production written
    exact startFault_eq_none ⟨p, member, named.trans name⟩

theorem startFault_eq_some_iff {start : Symbol} : startFault start ps = some fault ↔
    startFault start ps ≠ none ∧ fault = .noStart start := by
  unfold startFault
  split <;> simp [eq_comm]

end Rules

section Verdict

theorem fault_eq_none_iff : d.fault = none ↔ d.Proper := by
  simp only [fault, Option.or_eq_none_iff, mixedFault_eq_none_iff, reservedFault_eq_none_iff,
    kindFault_eq_none_iff, ruleFault_eq_none_iff, admits_rules_iff]
  constructor
  · rintro ⟨unmixed, unreserved, apart, ⟨declares, distinct⟩, free⟩
    exact ⟨unmixed, unreserved, apart, declares, distinct, (startFault_eq_none_iff declares).mp free⟩
  · rintro ⟨unmixed, unreserved, apart, declares, distinct, started⟩
    exact ⟨unmixed, unreserved, apart, ⟨declares, distinct⟩,
      (startFault_eq_none_iff declares).mpr started⟩

theorem fault_eq_some_iff : d.fault = some fault ↔ d.Refused fault := by
  simp only [Declaration.fault, Option.or_eq_some_iff, mixedFault_eq_none_iff,
    reservedFault_eq_none_iff, kindFault_eq_none_iff, mixedFault_eq_some_iff,
    reservedFault_eq_some_iff, kindFault_eq_some_iff, ruleFault_eq_some_iff,
    startFault_eq_some_iff, ruleFault_eq_none_iff, List.nil_append]
  constructor
  · rintro (⟨before, p, after, written, earlier, mixed, rfl⟩ |
      ⟨unmixed, ⟨names, lists, rfl⟩ |
        ⟨unreserved, ⟨names, lists, rfl⟩ |
          ⟨apart, ⟨before, p, after, written, earlier, found⟩ |
            ⟨admits, missing, rfl⟩⟩⟩⟩)
    · exact .mixedEmpty written earlier mixed
    · exact .reserved unmixed lists
    · exact .bothKinds unmixed unreserved lists
    · rcases (faultAt_eq_some_iff earlier.2).mp found with
        ⟨s, stranger, rfl⟩ | ⟨declares, q, member, same, rfl⟩
      · exact .undeclared unmixed unreserved apart written earlier stranger
      · exact .repeated unmixed unreserved apart written earlier declares member same
    · obtain ⟨declares, distinct⟩ := admits_rules_iff.mp admits
      rw [ne_eq, startFault_eq_none_iff declares] at missing
      exact .noStart unmixed unreserved apart declares distinct missing
  · intro refused
    cases refused with
    | mixedEmpty written earlier mixed =>
      exact Or.inl ⟨_, _, _, written, earlier, mixed, rfl⟩
    | reserved unmixed lists => exact Or.inr ⟨unmixed, Or.inl ⟨_, lists, rfl⟩⟩
    | bothKinds unmixed unreserved lists =>
      exact Or.inr ⟨unmixed, Or.inr ⟨unreserved, Or.inl ⟨_, lists, rfl⟩⟩⟩
    | undeclared unmixed unreserved apart written earlier stranger =>
      have found := (faultAt_eq_some_iff earlier.2).mpr (Or.inl ⟨_, stranger, rfl⟩)
      exact Or.inr ⟨unmixed, Or.inr ⟨unreserved, Or.inr ⟨apart,
        Or.inl ⟨_, _, _, written, earlier, found⟩⟩⟩⟩
    | repeated unmixed unreserved apart written earlier declares member same =>
      have found := (faultAt_eq_some_iff earlier.2).mpr (Or.inr ⟨declares, _, member, same, rfl⟩)
      exact Or.inr ⟨unmixed, Or.inr ⟨unreserved, Or.inr ⟨apart,
        Or.inl ⟨_, _, _, written, earlier, found⟩⟩⟩⟩
    | noStart unmixed unreserved apart declares distinct missing =>
      rw [← startFault_eq_none_iff declares] at missing
      exact Or.inr ⟨unmixed, Or.inr ⟨unreserved, Or.inr ⟨apart,
        Or.inr ⟨admits_rules_iff.mpr ⟨declares, distinct⟩, missing, rfl⟩⟩⟩⟩

theorem grammar_eq_error_iff : d.grammar = .error fault ↔ d.fault = some fault := by
  unfold grammar
  split
  · rename_i found
    simp [found]
  · rename_i free
    simp [free]

theorem exists_grammar_iff_proper : (∃ g, d.grammar = .ok g) ↔ d.Proper := by
  rw [← fault_eq_none_iff]
  constructor
  · intro ⟨g, made⟩
    apply Option.eq_none_iff_forall_ne_some.mpr
    intro fault found
    rw [grammar_eq_error_iff.mpr found] at made
    cases made
  · exact fun free => ⟨_, grammar_of_fault free⟩

end Verdict

/-- What a grammar has from the declaration that it was made of. -/
structure Establishes (d : Declaration) (g : Grammar) : Prop where
  start_eq : g.start = d.start
  production_at : ∀ i : Nat,
    g.productions[i]? = d.rules[i]?.map fun rule => ⟨rule.1, (marked rule).2, (i : Int)⟩
  mem_nonterminals : ∀ s, s ∈ g.nonterminals ↔ d.IsNonterminal s
  mem_terminals : ∀ s, s ∈ g.terminals ↔ d.IsTerminal s
  nonterminals_listed : g.nonterminalList.Nodup ∧ ∀ s, s ∈ g.nonterminalList ↔ d.IsNonterminal s
  terminals_listed : g.terminalList.Nodup ∧ ∀ s, s ∈ g.terminalList ↔ d.IsTerminal s
  start_first : g.nonterminalList.head? = some d.start
  written_first : ∃ declared, declared.Pairwise (· < ·) ∧
    g.nonterminalList = (d.start :: d.rules.map (·.1)).eraseDups ++ declared
  kind_iff : ∀ s kind, g.kind? s = some kind ↔ d.HasKind s kind

theorem kind?_eq_some_iff {kind : SymbolKind} (memT : ∀ s, s ∈ g.terminals ↔ d.IsTerminal s)
    (memN : ∀ s, s ∈ g.nonterminals ↔ d.IsNonterminal s) :
    g.kind? s = some kind ↔ d.HasKind s kind := by
  have apart := g.wellFormed.disjoint s
  have markT : s ∈ g.terminals → s ≠ Symbol.endMark := Grammar.terminal_ne_endMark
  have markN : s ∈ g.nonterminals → s ≠ Symbol.endMark := Grammar.nonterminal_ne_endMark
  have emptyT : s ∈ g.terminals → s ≠ Symbol.empty := Grammar.terminal_ne_empty
  have emptyN : s ∈ g.nonterminals → s ≠ Symbol.empty := Grammar.nonterminal_ne_empty
  have marks := Symbol.empty_ne_endMark
  cases kind <;> simp only [HasKind, ← memT, ← memN, Grammar.kind?] <;> grind

theorem establishes (made : d.grammar = .ok g) : d.Establishes g := by
  obtain ⟨start, productions, terminals, nonterminals⟩ := of_grammar made
  have memT : ∀ s, s ∈ g.terminals ↔ d.IsTerminal s := fun s => terminals ▸ mem_terminalSet
  have memN : ∀ s, s ∈ g.nonterminals ↔ d.IsNonterminal s :=
    fun s => nonterminals ▸ mem_nonterminalSet
  refine ⟨start, ?_, memN, memT, ⟨g.nonterminalList_nodup, fun s => ?_⟩,
    ⟨g.terminalList_nodup, fun s => ?_⟩, ?_, ?_, fun s kind => kind?_eq_some_iff memT memN⟩
  · intro i
    rw [productions, Declaration.productions, List.getElem?_mapIdx]
    rfl
  · rw [Grammar.mem_nonterminalList, memN]
  · rw [Grammar.mem_terminalList, memT]
  · obtain ⟨rest, listing⟩ := g.nonterminalList_eq_cons
    rw [listing, List.head?_cons, start]
  · have names : g.productions.map (·.name) = d.rules.map (·.1) :=
      productions ▸ d.map_name_productions
    rw [← names, ← start]
    exact ⟨_, SymbolSet.ascending _, rfl⟩

/-- A declaration makes a grammar exactly if it meets all conditions, and is refused with a fault
exactly if this is said of the first one that fails. A grammar that is made has the declared
symbols, and its productions are the rules at their places. -/
theorem grammar_verdict (d : Declaration) :
    ((∃ g, d.grammar = .ok g) ↔ d.Proper) ∧
      (∀ fault, d.grammar = .error fault ↔ d.Refused fault) ∧
        ∀ g, d.grammar = .ok g → d.Establishes g :=
  ⟨exists_grammar_iff_proper, fun _ => grammar_eq_error_iff.trans fault_eq_some_iff,
    fun _ => establishes⟩

end Declaration

namespace Sample

def mistaken : Declaration where
  start := "S"
  rules := [("S", ["a"]), ("S", ["b"]), ("S", ["a"]), ("S", ["c"])]
  terminals := some ["a", "b"]
  nonterminals := none

theorem mistaken_grammar_verdict :
    (mistaken.grammar = .error (.repeated ⟨"S", ["a"], 0⟩ ⟨"S", ["a"], 2⟩) ∧ ¬ mistaken.Proper ∧
      mistaken.Refused (.repeated ⟨"S", ["a"], 0⟩ ⟨"S", ["a"], 2⟩)) ∧
    textbook.grammar = .ok textbookGrammar ∧ textbook.Proper ∧
      textbook.Establishes textbookGrammar := by
  have refused : mistaken.grammar = .error (.repeated ⟨"S", ["a"], 0⟩ ⟨"S", ["a"], 2⟩) :=
    Declaration.grammar_eq_error_iff.mpr (by decide +kernel)
  have made : textbook.grammar = .ok textbookGrammar :=
    Declaration.grammar_of_fault (by decide +kernel)
  obtain ⟨accepts, refuses, _⟩ := Declaration.grammar_verdict mistaken
  obtain ⟨accepted, _, establishes⟩ := Declaration.grammar_verdict textbook
  refine ⟨⟨refused, ?_, (refuses _).mp refused⟩, made, accepted.mp ⟨_, made⟩,
    establishes _ made⟩
  intro proper
  obtain ⟨g, found⟩ := accepts.mpr proper
  rw [refused] at found
  cases found

end Sample

end TopDown
