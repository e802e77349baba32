import TopDown.Proofs.Family.Convergence

namespace TopDown.Follow

open Family

variable {g : Grammar} {firsts F G : Family} {p : Production} {s x : Symbol}
  {symbols before after : List Symbol} {T : Symbol → Prop} {grew : Bool}

/-- What the places of a symbol in a right side put into its set: the tokens that the sequence after
a place begins with and, if that sequence can be empty, what is in the set of the production's name. -/
def Contributes (firsts F : Family) (p : Production) (s x : Symbol) : Prop :=
  ∃ before after rest, p.symbols = before ++ s :: after ∧ firsts.leading after = .ok rest ∧
    ((x ≠ Symbol.empty ∧ x ∈ rest) ∨ (Symbol.empty ∈ rest ∧ F.Has p.name x))

/-- What a production makes of a family in a sweep. The nonterminals of its right side get what their
places contribute, no other set changes, and the sweep hears whether some set has grown. -/
structure Processes (g : Grammar) (firsts : Family) (p : Production) (F G : Family)
    (grew : Bool) : Prop where
  symbols_eq : G.symbols = F.symbols
  leading_ok : ∀ before s after, p.symbols = before ++ s :: after →
    ∃ rest, firsts.leading after = .ok rest
  adds : ∀ s ∈ g.nonterminals, ∀ set, F.find s = .ok set →
    ∃ larger, G.find s = .ok larger ∧ ∀ x, x ∈ larger ↔ x ∈ set ∨ Contributes firsts F p s x
  others : ∀ s, (s ∈ p.symbols → ¬ s ∈ g.nonterminals) → G.find s = F.find s
  grew_iff : grew = true ↔ ∃ s x, G.Has s x ∧ ¬ F.Has s x
  in_pass : ∀ later, sweepProductions g firsts (p :: later) F =
    ((sweepProductions g firsts later G).1,
      (sweepProductions g firsts later G).2.map (grew || ·))

def Demanded (g : Grammar) (firsts : Family) (symbols : List Symbol) (T : Symbol → Prop)
    (s x : Symbol) : Prop :=
  s ∈ g.nonterminals ∧ ∃ before after, symbols = before ++ s :: after ∧
    Comes (Stands g firsts) after T x

theorem has_iff_demanded (improves : F.Improves (Demands g firsts symbols T) G grew)
    (met : Demands g firsts symbols T G.Has) :
    G.Has s x ↔ F.Has s x ∨ Demanded g firsts symbols T s x := by
  constructor
  · refine improves.least (fun s x => F.Has s x ∨ Demanded g firsts symbols T s x) ?_ ?_ s x
    · exact fun before s after whole member x comes =>
        Or.inr ⟨member, before, after, whole, comes⟩
    · exact fun _ _ => Or.inl
  · rintro (old | ⟨member, before, after, whole, comes⟩)
    · exact improves.below.has old
    · exact met before s after whole member x comes

theorem find_eq_standing (standing : ∀ s ∈ g.terminals, firsts.find s = .ok (.singleton s))
    (s : Symbol) : firsts.find s = (Follow.standing g firsts).find s := by
  rw [standing_find]
  by_cases terminal : s ∈ g.terminals
  · rw [if_pos terminal, standing s terminal]
  · rw [if_neg terminal]

/-- Read backwards or forwards, the sequence after a place begins with the same tokens. -/
theorem exists_leading (standing : ∀ s ∈ g.terminals, firsts.find s = .ok (.singleton s))
    (known : ∀ s, s ∈ g.nonterminals → firsts.Defines s) (rule : p ∈ g.productions)
    (whole : p.symbols = before ++ s :: after) :
    ∃ rest, firsts.leading after = .ok rest ∧ ∀ T x, Comes (Stands g firsts) after T x ↔
      (x ≠ Symbol.empty ∧ x ∈ rest) ∨ (Symbol.empty ∈ rest ∧ T x) := by
  have declared : ∀ t ∈ after, t = Symbol.empty ∨ t ∈ g.terminals ∨ t ∈ g.nonterminals :=
    fun t inside => g.wellFormed.symbol_declared p rule t (by simp [whole, inside])
  have same := find_eq_standing standing
  obtain ⟨rest, computed, spec⟩ := leading_spec (F := firsts) (α := after) fun t inside plain => by
    unfold Defines
    rw [same]
    exact standing_defines known ((declared t inside).resolve_left plain)
  refine ⟨rest, computed, fun T x => ?_⟩
  have leads : ∀ y, Leads (Stands g firsts) after y ↔ y ∈ rest := by
    intro y
    rw [spec, has_congr same, leads_standing declared]
  rw [Comes, leads, leads]

theorem demanded_iff_contributes
    (standing : ∀ s ∈ g.terminals, firsts.find s = .ok (.singleton s))
    (known : ∀ s, s ∈ g.nonterminals → firsts.Defines s) (rule : p ∈ g.productions)
    (member : s ∈ g.nonterminals) :
    Demanded g firsts p.symbols (F.Has p.name) s x ↔ Contributes firsts F p s x := by
  constructor
  · rintro ⟨_, before, after, whole, comes⟩
    obtain ⟨rest, computed, spec⟩ := exists_leading standing known rule whole
    exact ⟨before, after, rest, whole, computed, (spec _ _).mp comes⟩
  · rintro ⟨before, after, rest, whole, computed, gives⟩
    obtain ⟨rest', computed', spec⟩ := exists_leading standing known rule whole
    rw [computed] at computed'
    cases computed'
    exact ⟨member, before, after, whole, (spec _ _).mpr gives⟩

/-- Processing a production adds what its places contribute, in terms of the family before. -/
theorem sweepProduction_exact
    (standing : ∀ s ∈ g.terminals, firsts.find s = .ok (.singleton s))
    (known : ∀ s, s ∈ g.nonterminals → firsts.Defines s)
    (complete : ∀ s, s ∈ g.nonterminals → F.Defines s) (rule : p ∈ g.productions) :
    ∃ G grew, sweepProduction g firsts p F = (G, .ok grew) ∧
      Processes g firsts p F G grew := by
  obtain ⟨trailer, found⟩ := complete p.name (g.wellFormed.name_declared p rule)
  obtain ⟨G, passed, grew, swept, _, improves, met⟩ :=
    sweepSymbols_ok known p.symbols trailer complete
  have processed : sweepProduction g firsts p F = (G, .ok grew) := by
    simp [sweepProduction, found, swept, Except.map]
  -- The trailer starts as the set of the name before anything is added to it.
  have start : (· ∈ trailer) = F.Has p.name := by
    funext y
    exact propext (has_iff found y).symm
  rw [start] at improves met
  have has : ∀ s x, G.Has s x ↔ F.Has s x ∨ Demanded g firsts p.symbols (F.Has p.name) s x :=
    fun s x => has_iff_demanded improves met
  refine ⟨G, grew, processed, ?_⟩
  constructor
  case symbols_eq => exact improves.below.symbols_eq.symm
  case leading_ok =>
    intro before s after whole
    obtain ⟨rest, computed, _⟩ := exists_leading standing known rule whole
    exact ⟨rest, computed⟩
  case adds =>
    intro s member set held
    obtain ⟨larger, held', _⟩ := improves.below.find held
    refine ⟨larger, held', fun x => ?_⟩
    rw [← has_iff held', has, has_iff held, demanded_iff_contributes standing known rule member]
  case others =>
    intro s outside
    refine find_congr improves.below.symbols_eq.symm fun x => ?_
    rw [has, or_iff_left]
    rintro ⟨member, before, after, whole, _⟩
    exact outside (by simp [whole]) member
  case grew_iff =>
    refine ⟨improves.new, ?_⟩
    rintro ⟨s, x, new, missing⟩
    by_contra still
    exact missing ((improves.done (Bool.not_eq_true _ ▸ still)).2 s x new)
  case in_pass =>
    intro later
    simp only [sweepProductions, processed]

end TopDown.Follow

namespace TopDown.Sample

/-- FIRST sets of no grammar: `B` can be empty, and the end mark can stand in its place. -/
def loose : Family :=
  ⟨[("a", .singleton "a"), ("b", .singleton "b"), ("c", .singleton "c"), ("S", ∅),
    ("A", .singleton Symbol.empty), ("B", .ofList [Symbol.endMark, Symbol.empty])]⟩

theorem loose_sweepProduction_exact :
    (∀ s ∈ textbookGrammar.terminals, loose.find s = .ok (.singleton s)) ∧
    (∀ s, s ∈ textbookGrammar.nonterminals → loose.Defines s) ∧
    (∀ s, s ∈ textbookGrammar.nonterminals → stray.Defines s) ∧
    ⟨"S", ["a", "A", "B", "b"], 0⟩ ∈ textbookGrammar.productions ∧
    ∃ G grew, Follow.sweepProduction textbookGrammar loose ⟨"S", ["a", "A", "B", "b"], 0⟩ stray =
      (G, .ok grew) ∧
        Follow.Processes textbookGrammar loose ⟨"S", ["a", "A", "B", "b"], 0⟩ stray G grew := by
  have terminals : ∀ s ∈ textbookGrammar.terminals.toList,
      loose.entries.lookup s = some (.singleton s) := by decide +kernel
  have nonterminals : ∀ s ∈ textbookGrammar.nonterminals.toList, s ∈ loose.symbols := by
    decide +kernel
  have rule : (⟨"S", ["a", "A", "B", "b"], 0⟩ : Production) ∈ textbookGrammar.productions := by
    decide +kernel
  have standing : ∀ s ∈ textbookGrammar.terminals, loose.find s = .ok (.singleton s) :=
    fun s terminal => Family.find_eq_ok.mpr (terminals s terminal)
  have known : ∀ s, s ∈ textbookGrammar.nonterminals → loose.Defines s :=
    fun s nonterminal => Family.defines_iff.mpr (nonterminals s nonterminal)
  have complete : ∀ s, s ∈ textbookGrammar.nonterminals → stray.Defines s :=
    fun s nonterminal => stray_complete s (Or.inr nonterminal)
  exact ⟨standing, known, complete, rule,
    Follow.sweepProduction_exact standing known complete rule⟩

end TopDown.Sample
