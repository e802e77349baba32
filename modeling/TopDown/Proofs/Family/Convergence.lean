import TopDown.Proofs.Reordering

namespace TopDown

namespace Family

def Included (F G : Family) : Prop :=
  ∀ s set, F.find s = .ok set → ∃ larger, G.find s = .ok larger ∧ ∀ x, x ∈ set → x ∈ larger

/-- A sweep from the family adds members only and answers whether some set has changed, and repeated
sweeps settle on the least family above it that satisfies a condition. -/
structure Converges (sweep : Sweep) (close : Family → Except Failure Settled)
    (condition : Family → Prop) (F : Family) : Prop where
  sweep_ok : ∃ G grew, sweep F = (G, .ok grew) ∧ F.Below G ∧
    (grew = true ↔ ∃ s, F.find s ≠ G.find s)
  settles : ∃ settled, close F = .ok settled ∧ F.Settles sweep settled ∧
    F.Below settled.family ∧ condition settled.family ∧
      ∀ H, condition H → F.Included H → settled.family.Included H

variable {F G H : Family} {C : (Symbol → Symbol → Prop) → Prop} {s x : Symbol} {set : SymbolSet}

theorem Included.has (included : F.Included G) (h : F.Has s x) : G.Has s x := by
  obtain ⟨set, found, member⟩ := h
  obtain ⟨larger, found', more⟩ := included s set found
  exact ⟨larger, found', more x member⟩

theorem Included.defines (included : F.Included G) (defined : F.Defines s) : G.Defines s := by
  obtain ⟨set, found⟩ := defined
  obtain ⟨larger, found', _⟩ := included s set found
  exact ⟨larger, found'⟩

theorem Improves.grew_iff {grew : Bool} (improves : Improves C F G grew) :
    grew = true ↔ ∃ s, F.find s ≠ G.find s := by
  constructor
  · intro more
    obtain ⟨s, x, new, missing⟩ := improves.new more
    refine ⟨s, fun same => missing ?_⟩
    rwa [Has, same]
  · rintro ⟨s, changed⟩
    by_contra still
    obtain ⟨_, same⟩ := improves.done (by simpa using still)
    exact changed (find_congr improves.below.symbols_eq
      fun x => ⟨improves.below.has, same s x⟩)

theorem SettledOn.included (on : SettledOn C F G) (included : F.Included H) (closed : C H.Has) :
    G.Included H := by
  intro s set found
  have initial : F.Defines s := by
    rw [defines_iff, on.below.symbols_eq, ← defines_iff]
    exact ⟨set, found⟩
  obtain ⟨larger, found'⟩ := included.defines initial
  refine ⟨larger, found', fun x member => (has_iff found' x).mp ?_⟩
  exact on.least H.Has closed (fun _ _ => included.has) s x ((has_iff found x).mpr member)

end Family

open Family

namespace First

variable {g h : Grammar} {F : Family}

def Satisfied (g : Grammar) (F : Family) : Prop :=
  ∀ p ∈ g.productions, ∃ more held, F.leading p.symbols = .ok more ∧ F.find p.name = .ok held ∧
    ∀ x, x ∈ more → x ∈ held

def Complete (g : Grammar) (F : Family) : Prop :=
  ∀ s, s ∈ g.terminals ∨ s ∈ g.nonterminals → F.Defines s

theorem satisfied_iff (complete : Complete g F) :
    Satisfied g F ↔ Closed g.productions F.Has := by
  refine forall₂_congr fun p rule => ?_
  obtain ⟨more, computed, spec⟩ := leading_spec (F := F) (α := p.symbols) fun s inside plain =>
    complete s ((g.wellFormed.symbol_declared p rule s inside).resolve_left plain)
  obtain ⟨held, found⟩ := complete p.name (Or.inr (g.wellFormed.name_declared p rule))
  simp [computed, found, spec, has_iff found]

theorem converges (complete : Complete g F) :
    F.Converges (sweep g) (close g) (Satisfied g) := by
  have names : ∀ p ∈ g.productions, F.Defines p.name :=
    fun p rule => complete _ (Or.inr (g.wellFormed.name_declared p rule))
  obtain ⟨G, grew, swept, improves⟩ := sweepProductions_ok names fun p rule s inside plain =>
    complete s ((g.wellFormed.symbol_declared p rule s inside).resolve_left plain)
  obtain ⟨settled, closed, on⟩ := close_ok complete
  have complete' : Complete g settled.family := fun s known => on.below.defines (complete s known)
  refine ⟨⟨G, grew, swept, improves.below, improves.grew_iff⟩, settled, closed,
    settles_of_settle closed, on.below, (satisfied_iff complete').mpr on.closed, ?_⟩
  intro H satisfied included
  have completeH : Complete g H := fun s known => included.defines (complete s known)
  exact on.included included ((satisfied_iff completeH).mp satisfied)

theorem close_find_eq (within : g.Within h) (back : h.Within g) (complete : Complete g F) :
    ∃ settled settled', close g F = .ok settled ∧ close h F = .ok settled' ∧
      ∀ s, settled.family.find s = settled'.family.find s := by
  have complete' : Complete h F := by
    rwa [Complete, ← within.terminals_eq, ← within.nonterminals_eq]
  obtain ⟨settled, closed, on⟩ := close_ok complete
  obtain ⟨settled', closed', on'⟩ := close_ok complete'
  exact ⟨settled, settled', closed, closed',
    on.find_eq on' fun _ => ⟨.within back, .within within⟩⟩

end First

namespace Follow

variable {g h : Grammar} {firsts F : Family} {s x : Symbol} {α : List Symbol}

def standing (g : Grammar) (firsts : Family) : Family :=
  ⟨(g.terminals.toList.map fun t => (t, SymbolSet.singleton t)) ++ firsts.entries⟩

/-- After each nonterminal in a right side comes what the rest of it begins with and, if the rest can
be empty, what comes after the name of the production. -/
def Satisfied (g : Grammar) (firsts F : Family) : Prop :=
  ∀ p ∈ g.productions, ∀ before s after, p.symbols = before ++ s :: after → s ∈ g.nonterminals →
    ∃ rest above held, (standing g firsts).leading after = .ok rest ∧
      F.find p.name = .ok above ∧ F.find s = .ok held ∧
        (∀ x, x ∈ rest → x ≠ Symbol.empty → x ∈ held) ∧
          (Symbol.empty ∈ rest → ∀ x, x ∈ above → x ∈ held)

theorem standing_find (g : Grammar) (firsts : Family) (s : Symbol) :
    (standing g firsts).find s =
      if s ∈ g.terminals then .ok (.singleton s) else firsts.find s := by
  rw [standing, find_map_append]
  rfl

theorem standing_defines (known : ∀ s, s ∈ g.nonterminals → firsts.Defines s)
    (declared : s ∈ g.terminals ∨ s ∈ g.nonterminals) : (standing g firsts).Defines s := by
  unfold Defines
  rw [standing_find]
  by_cases terminal : s ∈ g.terminals
  · exact ⟨.singleton s, if_pos terminal⟩
  · obtain ⟨set, found⟩ := known s (declared.resolve_left terminal)
    exact ⟨set, (if_neg terminal).trans found⟩

theorem standing_has (declared : s ∈ g.terminals ∨ s ∈ g.nonterminals) :
    (standing g firsts).Has s x ↔ Stands g firsts s x := by
  unfold Stands Has
  rw [standing_find]
  by_cases terminal : s ∈ g.terminals
  · have other : ¬ s ∈ g.nonterminals := g.wellFormed.disjoint s terminal
    simp [terminal, other]
  · simp [terminal, declared.resolve_left terminal]

theorem leads_standing
    (known : ∀ s ∈ α, s = Symbol.empty ∨ s ∈ g.terminals ∨ s ∈ g.nonterminals) :
    Leads (standing g firsts).Has α x ↔ Leads (Stands g firsts) α x := by
  have same : ∀ s ∈ α, s ≠ Symbol.empty → ∀ y,
      (standing g firsts).Has s y ↔ Stands g firsts s y :=
    fun s inside plain _ => standing_has ((known s inside).resolve_left plain)
  constructor
  · exact fun leads => leads.mono fun s inside plain y => (same s inside plain y).mp
  · exact fun leads => leads.mono fun s inside plain y => (same s inside plain y).mpr

theorem satisfied_iff (known : ∀ s, s ∈ g.nonterminals → firsts.Defines s)
    (complete : ∀ s, s ∈ g.nonterminals → F.Defines s) :
    Satisfied g firsts F ↔ Closed g firsts g.productions F.Has := by
  refine forall₂_congr fun p rule => forall₃_congr fun before s after => ?_
  refine forall₂_congr fun same nonterminal => ?_
  have declared : ∀ r ∈ after, r = Symbol.empty ∨ r ∈ g.terminals ∨ r ∈ g.nonterminals :=
    fun r inside => g.wellFormed.symbol_declared p rule r (by simp [same, inside])
  obtain ⟨rest, computed, spec⟩ := leading_spec (F := standing g firsts) (α := after)
    fun r inside plain => standing_defines known ((declared r inside).resolve_left plain)
  obtain ⟨above, found⟩ := complete p.name (g.wellFormed.name_declared p rule)
  obtain ⟨held, found'⟩ := complete s nonterminal
  simp only [computed, found, found', Except.ok.injEq, exists_and_left, exists_eq_left', spec,
    leads_standing declared, Comes, has_iff found, has_iff found']
  constructor
  · rintro ⟨starts, passes⟩ x comes
    rcases comes with ⟨plain, leads⟩ | ⟨vanish, inside⟩
    · exact starts x leads plain
    · exact passes vanish x inside
  · intro demands
    exact ⟨fun x leads plain => demands x (Or.inl ⟨plain, leads⟩),
      fun vanish x inside => demands x (Or.inr ⟨vanish, inside⟩)⟩

theorem converges (known : ∀ s, s ∈ g.nonterminals → firsts.Defines s)
    (complete : ∀ s, s ∈ g.nonterminals → F.Defines s) :
    F.Converges (sweep g firsts) (close g firsts) (Satisfied g firsts) := by
  obtain ⟨G, grew, swept, improves⟩ :=
    sweepProductions_ok known g.wellFormed.name_declared complete
  obtain ⟨settled, closed, on⟩ := close_ok known complete
  have complete' : ∀ s, s ∈ g.nonterminals → settled.family.Defines s :=
    fun s nonterminal => on.below.defines (complete s nonterminal)
  refine ⟨⟨G, grew, swept, improves.below, improves.grew_iff⟩, settled, closed,
    settles_of_settle closed, on.below, (satisfied_iff known complete').mpr on.closed, ?_⟩
  intro H satisfied included
  have completeH : ∀ s, s ∈ g.nonterminals → H.Defines s :=
    fun s nonterminal => included.defines (complete s nonterminal)
  exact on.included included ((satisfied_iff known completeH).mp satisfied)

theorem close_find_eq (within : g.Within h) (back : h.Within g)
    (known : ∀ s, s ∈ g.nonterminals → firsts.Defines s)
    (complete : ∀ s, s ∈ g.nonterminals → F.Defines s) :
    ∃ settled settled', close g firsts F = .ok settled ∧ close h firsts F = .ok settled' ∧
      ∀ s, settled.family.find s = settled'.family.find s := by
  obtain ⟨settled, closed, on⟩ := close_ok known complete
  rw [within.nonterminals_eq] at known complete
  obtain ⟨settled', closed', on'⟩ := close_ok known complete
  exact ⟨settled, settled', closed, closed',
    on.find_eq on' fun _ => ⟨.within back rfl, .within within rfl⟩⟩

end Follow

/-- From every complete family, sweeps for FIRST converge to the least solution, and so do sweeps for
FOLLOW with given FIRST sets. A grammar with the same rules in another order has the same solution. -/
theorem Grammar.sweeps_converge (g : Grammar) :
    (∀ F : Family, First.Complete g F →
      F.Converges (First.sweep g) (First.close g) (First.Satisfied g) ∧
      ∀ h : Grammar, g.Within h → h.Within g → ∃ settled settled',
        First.close g F = .ok settled ∧ First.close h F = .ok settled' ∧
          ∀ s, settled.family.find s = settled'.family.find s) ∧
    ∀ firsts F : Family, (∀ s, s ∈ g.nonterminals → firsts.Defines s) →
      (∀ s, s ∈ g.nonterminals → F.Defines s) →
      F.Converges (Follow.sweep g firsts) (Follow.close g firsts) (Follow.Satisfied g firsts) ∧
      ∀ h : Grammar, g.Within h → h.Within g → ∃ settled settled',
        Follow.close g firsts F = .ok settled ∧ Follow.close h firsts F = .ok settled' ∧
          ∀ s, settled.family.find s = settled'.family.find s := by
  constructor
  · intro F complete
    exact ⟨First.converges complete,
      fun h within back => First.close_find_eq within back complete⟩
  · intro firsts F known complete
    exact ⟨Follow.converges known complete,
      fun h within back => Follow.close_find_eq within back known complete⟩

namespace Sample

/-- Sets that do not come from a derivation: a terminal that can be empty, one that begins with
another one, and symbols that no grammar declares. -/
def stray : Family :=
  ⟨[("a", .ofList ["b", Symbol.empty]), ("b", .singleton "c"), ("c", ∅), ("S", .singleton "?"),
    ("A", ∅), ("B", .ofList [Symbol.endMark, Symbol.empty])]⟩

theorem stray_complete : First.Complete textbookGrammar stray := by
  have defined : ∀ s ∈ stray.symbols, stray.Defines s := fun s => Family.defines_iff.mpr
  have terminals : ∀ s ∈ textbookGrammar.terminals.toList, s ∈ stray.symbols := by decide +kernel
  have nonterminals : ∀ s ∈ textbookGrammar.nonterminals.toList, s ∈ stray.symbols := by
    decide +kernel
  intro s known
  exact defined s (known.elim (terminals s) (nonterminals s))

theorem textbook_sweeps_converge :
    First.Complete textbookGrammar stray ∧
    stray.Converges (First.sweep textbookGrammar) (First.close textbookGrammar)
      (First.Satisfied textbookGrammar) ∧
    stray.Converges (Follow.sweep textbookGrammar stray) (Follow.close textbookGrammar stray)
      (Follow.Satisfied textbookGrammar stray) ∧
    ∃ h, reversed.grammar = .ok h ∧ textbookGrammar.Within h ∧ h.Within textbookGrammar ∧
      (∃ settled settled', First.close textbookGrammar stray = .ok settled ∧
        First.close h stray = .ok settled' ∧
          ∀ s, settled.family.find s = settled'.family.find s) ∧
      ∃ settled settled', Follow.close textbookGrammar stray stray = .ok settled ∧
        Follow.close h stray stray = .ok settled' ∧
          ∀ s, settled.family.find s = settled'.family.find s := by
  have made := Declaration.grammar_of_fault (d := textbook) (by decide +kernel)
  have made' := Declaration.grammar_of_fault (d := reversed) (by decide +kernel)
  obtain ⟨within, back⟩ := reversed_reorders.within made made'
  obtain ⟨first, follow⟩ := Grammar.sweeps_converge textbookGrammar
  have known : ∀ s, s ∈ textbookGrammar.nonterminals → stray.Defines s :=
    fun s nonterminal => stray_complete s (Or.inr nonterminal)
  obtain ⟨converges, order⟩ := first stray stray_complete
  obtain ⟨converges', order'⟩ := follow stray stray known known
  exact ⟨stray_complete, converges, converges', _, made', within, back, order _ within back,
    order' _ within back⟩

end Sample

end TopDown
