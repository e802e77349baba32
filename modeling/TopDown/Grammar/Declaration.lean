import TopDown.Grammar
import TopDown.Grammar.Fault

namespace TopDown

/-- A start symbol, rules in the order they are written, and the declared symbols; what is not
declared is inferred from the rules. -/
structure Declaration where
  start : Symbol
  rules : List (Symbol × List Symbol)
  terminals : Option (List Symbol)
  nonterminals : Option (List Symbol)
  deriving Repr

namespace Declaration

/-- The rules as productions. An empty right side is written with the mark `ε`. -/
def productions (d : Declaration) : List Production :=
  d.rules.mapIdx fun i rule =>
    ⟨rule.1, if rule.2.isEmpty then [Symbol.empty] else rule.2, (i : Int)⟩

def nonterminalSet (d : Declaration) : SymbolSet :=
  SymbolSet.ofList (d.nonterminals.getD (d.productions.map (·.name)))

def terminalSet (d : Declaration) : SymbolSet :=
  let nonterminals := d.nonterminalSet
  SymbolSet.ofList (d.terminals.getD ((d.productions.flatMap (·.symbols)).filter fun s =>
    s ≠ Symbol.empty && !decide (s ∈ nonterminals)))

def mixedFault (ps : List Production) : Option GrammarFault :=
  (ps.find? fun p => p.symbols.contains Symbol.empty && p.symbols.length != 1).map .mixedEmpty

def reservedFault (terminals nonterminals : SymbolSet) : Option GrammarFault :=
  let names := ((terminals.union nonterminals).filter (Symbol.isReserved ·)).toList
  if names.isEmpty then none else some (.reserved names)

def kindFault (terminals nonterminals : SymbolSet) : Option GrammarFault :=
  let names := (terminals.filter fun s => s ∈ nonterminals).toList
  if names.isEmpty then none else some (.bothKinds names)

def undeclaredFault (terminals nonterminals : SymbolSet) (p : Production) : Option GrammarFault :=
  if p.name ∈ nonterminals then
    (p.symbols.find? fun s =>
      s ≠ Symbol.empty && !decide (s ∈ terminals) && !decide (s ∈ nonterminals)).map
        fun s => .undeclared s p
  else some (.undeclared p.name p)

/-- Goes through the productions; each is compared with those before it. -/
def ruleFault (terminals nonterminals : SymbolSet) :
    List Production → List Production → Option GrammarFault
  | _, [] => none
  | earlier, p :: rest =>
    (undeclaredFault terminals nonterminals p).or <|
      ((earlier.find? fun q => q.sameRule p).map fun q => .repeated q p).or <|
        ruleFault terminals nonterminals (earlier ++ [p]) rest

def startFault (start : Symbol) (ps : List Production) : Option GrammarFault :=
  if ps.any (·.name == start) then none else some (.noStart start)

def fault (d : Declaration) : Option GrammarFault :=
  (mixedFault d.productions).or <|
    (reservedFault d.terminalSet d.nonterminalSet).or <|
      (kindFault d.terminalSet d.nonterminalSet).or <|
        (ruleFault d.terminalSet d.nonterminalSet [] d.productions).or <|
          startFault d.start d.productions

theorem index_productions (d : Declaration) (i : Nat) (bound : i < d.productions.length) :
    d.productions[i].index = (i : Int) := by
  simp [productions]

theorem symbols_ne_nil_of_mem (d : Declaration) {p : Production} (member : p ∈ d.productions) :
    p.symbols ≠ [] := by
  simp only [productions, List.mem_mapIdx] at member
  obtain ⟨i, bound, rfl⟩ := member
  dsimp only
  split
  · simp
  · rename_i nonempty
    simpa using nonempty

theorem eq_singleton_of_mixedFault {ps : List Production} (sound : mixedFault ps = none)
    {p : Production} (member : p ∈ ps) (mark : Symbol.empty ∈ p.symbols) :
    p.symbols = [Symbol.empty] := by
  simp only [mixedFault, Option.map_eq_none_iff, List.find?_eq_none] at sound
  have alone := sound p member
  have one : p.symbols.length = 1 := by simp_all
  obtain ⟨s, single⟩ := List.length_eq_one_iff.mp one
  rw [single] at mark ⊢
  simpa using (List.mem_singleton.mp mark).symm

theorem unreserved_of_reservedFault {t n : SymbolSet} (sound : reservedFault t n = none)
    {s : Symbol} (member : s ∈ t ∨ s ∈ n) : Symbol.isReserved s = false := by
  simp only [reservedFault] at sound
  split at sound
  · rename_i names
    cases reserved : Symbol.isReserved s with
    | false => rfl
    | true =>
      have inside : s ∈ (t.union n).filter (Symbol.isReserved ·) := by
        simp [reserved, member]
      rw [← SymbolSet.mem_toList, List.isEmpty_iff.mp names] at inside
      cases inside
  · cases sound

theorem not_mem_of_kindFault {t n : SymbolSet} (sound : kindFault t n = none) {s : Symbol}
    (member : s ∈ t) : ¬ s ∈ n := by
  intro other
  simp only [kindFault] at sound
  split at sound
  · rename_i names
    have inside : s ∈ t.filter fun s => s ∈ n := by simp [member, other]
    rw [← SymbolSet.mem_toList, List.isEmpty_iff.mp names] at inside
    cases inside
  · cases sound

theorem declared_of_undeclaredFault {t n : SymbolSet} {p : Production}
    (sound : undeclaredFault t n p = none) :
    p.name ∈ n ∧ ∀ s ∈ p.symbols, s = Symbol.empty ∨ s ∈ t ∨ s ∈ n := by
  simp only [undeclaredFault] at sound
  split at sound
  · rename_i name
    refine ⟨name, fun s member => ?_⟩
    simp only [Option.map_eq_none_iff, List.find?_eq_none] at sound
    have known := sound s member
    by_cases mark : s = Symbol.empty
    · exact Or.inl mark
    · by_cases terminal : s ∈ t
      · exact Or.inr (Or.inl terminal)
      · by_cases nonterminal : s ∈ n
        · exact Or.inr (Or.inr nonterminal)
        · simp [mark, terminal, nonterminal] at known
  · cases sound

theorem ruleFault_eq_none {t n : SymbolSet} {earlier ps : List Production}
    (sound : ruleFault t n earlier ps = none) :
    (∀ p ∈ ps, undeclaredFault t n p = none) ∧
      (∀ q ∈ earlier, ∀ p ∈ ps, q.sameRule p = false) ∧
        ps.Pairwise fun p q => p.sameRule q = false := by
  induction ps generalizing earlier with
  | nil => simp
  | cons p rest ih =>
    simp only [ruleFault, Option.or_eq_none_iff, Option.map_eq_none_iff, List.find?_eq_none]
      at sound
    obtain ⟨declared, fresh, later⟩ := sound
    obtain ⟨declaredRest, freshRest, pairwise⟩ := ih later
    refine ⟨?_, ?_, ?_⟩
    · intro q member
      rcases List.mem_cons.mp member with rfl | member
      · exact declared
      · exact declaredRest q member
    · intro q before r member
      rcases List.mem_cons.mp member with rfl | member
      · simpa using fresh q before
      · exact freshRest q (by simp [before]) r member
    · exact List.pairwise_cons.mpr ⟨fun q member => freshRest p (by simp) q member, pairwise⟩

theorem defined_of_startFault {start : Symbol} {ps : List Production}
    (sound : startFault start ps = none) : ∃ p ∈ ps, p.name = start := by
  simp only [startFault] at sound
  split at sound
  · rename_i found
    simpa using found
  · cases sound

theorem wellFormed_of_fault (d : Declaration) (sound : d.fault = none) :
    WellFormed d.start d.productions d.terminalSet d.nonterminalSet := by
  simp only [fault, Option.or_eq_none_iff] at sound
  obtain ⟨mixed, reserved, kind, rule, start⟩ := sound
  obtain ⟨declared, _, distinct⟩ := ruleFault_eq_none rule
  exact {
    index_eq := d.index_productions
    symbols_ne_nil := fun _ member => d.symbols_ne_nil_of_mem member
    unmixed := fun _ member => eq_singleton_of_mixedFault mixed member
    terminal_unreserved := fun _ member => unreserved_of_reservedFault reserved (Or.inl member)
    nonterminal_unreserved := fun _ member => unreserved_of_reservedFault reserved (Or.inr member)
    disjoint := fun _ member => not_mem_of_kindFault kind member
    name_declared := fun p member => (declared_of_undeclaredFault (declared p member)).1
    symbol_declared := fun p member => (declared_of_undeclaredFault (declared p member)).2
    distinct := distinct
    start_defined := defined_of_startFault start }

def grammar (d : Declaration) : Except GrammarFault Grammar :=
  match found : d.fault with
  | some f => .error f
  | none =>
    .ok ⟨d.start, d.productions, d.terminalSet, d.nonterminalSet, d.wellFormed_of_fault found⟩

end Declaration

end TopDown
