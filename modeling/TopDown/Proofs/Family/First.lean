import TopDown.Family.First
import TopDown.Proofs.Derivation
import TopDown.Proofs.Family.Settling

namespace TopDown

namespace First

def Closed (ps : List Production) (R : Symbol → Symbol → Prop) : Prop :=
  ∀ p ∈ ps, ∀ x, Leads R p.symbols x → R p.name x

theorem sweepProduction_ok {p : Production} {F : Family} (name : F.Defines p.name)
    (symbols : ∀ s ∈ p.symbols, s ≠ Symbol.empty → F.Defines s) :
    ∃ G grew, sweepProduction p F = .ok (G, grew) ∧
      F.Improves (fun R => ∀ x, Leads R p.symbols x → R p.name x) G grew := by
  obtain ⟨old, found⟩ := name
  obtain ⟨more, computed, spec⟩ := Family.leading_spec symbols
  refine ⟨F.enlarge p.name more, !more.subset old, ?_, ?_⟩
  · simp only [sweepProduction, found, computed]
  have improves := Family.improves_enlarge found more
  refine improves.congr (fun demanded x leads => demanded x ((spec x).mpr leads)) ?_
  intro R included demanded x member
  exact demanded x (((spec x).mp member).mono fun s _ _ => included s)

theorem sweepProductions_ok {ps : List Production} {F : Family}
    (names : ∀ p ∈ ps, F.Defines p.name)
    (symbols : ∀ p ∈ ps, ∀ s ∈ p.symbols, s ≠ Symbol.empty → F.Defines s) :
    ∃ G grew, sweepProductions ps F = (G, .ok grew) ∧ F.Improves (Closed ps) G grew := by
  induction ps generalizing F with
  | nil =>
    have nothing := Family.Improves.nothing F
    exact ⟨F, false, rfl, nothing.congr (fun _ => by simp [Closed]) (fun _ _ _ => trivial)⟩
  | cons p ps ih =>
    obtain ⟨G, here, swept, improves⟩ := sweepProduction_ok (names p (by simp)) (symbols p (by simp))
    obtain ⟨H, later, sweptRest, improvesRest⟩ := ih
      (fun q member => improves.below.defines (names q (by simp [member])))
      (fun q member s inside other =>
        improves.below.defines (symbols q (by simp [member]) s inside other))
    refine ⟨H, here || later, ?_, ?_⟩
    · simp only [sweepProductions, swept, sweptRest, Except.map]
    · have both := improves.and_then improvesRest
      refine both.congr (fun closed => ?_) (fun R _ closed => ?_)
      · exact List.forall_mem_cons.mpr closed
      · exact List.forall_mem_cons.mp closed

variable {g : Grammar}

theorem close_ok {F : Family} (complete : ∀ s, s ∈ g.terminals ∨ s ∈ g.nonterminals → F.Defines s) :
    ∃ settled, close g F = .ok settled ∧
      Family.SettledOn (Closed g.productions) F settled.family := by
  refine Family.settle_ok (F.members.insert Symbol.empty) ?_ ?_ complete ?_
    (Nat.lt_succ_self _)
  · intro p _ x leads
    rcases leads.mem with mark | ⟨_, _, inside⟩
    · simp [mark]
    · exact inside
  · intro G defined
    refine sweepProductions_ok (fun p member => ?_) (fun p member s inside other => ?_)
    · exact defined _ (Or.inr (g.wellFormed.name_declared p member))
    · rcases g.wellFormed.symbol_declared p member s inside with mark | declared
      · exact absurd mark other
      · exact defined s declared
  · intro s x member
    exact SymbolSet.mem_insert.mpr (Or.inr member.mem_members)

end First

namespace Grammar

/-- What the derivations of a form can begin with: a terminal, the end mark, or `ε` if the form
derives the empty string. -/
def Begins (g : Grammar) (form : List Symbol) (x : Symbol) : Prop :=
  (x = Symbol.empty ∧ g.Derives form []) ∨
    ((x ∈ g.terminals ∨ x = Symbol.endMark) ∧ ∃ rest, g.Derives form (x :: rest))

variable {g : Grammar}

theorem begins_empty {form : List Symbol} : g.Begins form Symbol.empty ↔ g.Derives form [] := by
  constructor
  · intro h
    rcases h with ⟨_, h⟩ | ⟨member | mark, _⟩
    · exact h
    · exact absurd rfl (terminal_ne_empty member)
    · exact absurd mark Symbol.empty_ne_endMark
  · intro h
    exact Or.inl ⟨rfl, h⟩

theorem begins_nil {x : Symbol} : g.Begins [] x ↔ x = Symbol.empty := by
  constructor
  · intro h
    rcases h with ⟨mark, _⟩ | ⟨_, rest, derives⟩
    · exact mark
    · cases derives.eq_nil
  · intro mark
    exact Or.inl ⟨mark, Derives.refl []⟩

theorem Begins.of_derives {u v : List Symbol} {x : Symbol} (h : g.Derives u v)
    (begins : g.Begins v x) : g.Begins u x := by
  rcases begins with ⟨mark, rest⟩ | ⟨kind, rest, derives⟩
  · exact Or.inl ⟨mark, h.trans rest⟩
  · exact Or.inr ⟨kind, rest, h.trans derives⟩

theorem Begins.append {u : List Symbol} {x : Symbol} (begins : g.Begins u x)
    (other : x ≠ Symbol.empty) (v : List Symbol) : g.Begins (u ++ v) x := by
  rcases begins with ⟨mark, _⟩ | ⟨kind, rest, derives⟩
  · exact absurd mark other
  · exact Or.inr ⟨kind, rest ++ v, by simpa using derives.append (Derives.refl v)⟩

theorem leads_of_begins {R : Symbol → Symbol → Prop} (closed : First.Closed g.productions R)
    (itself : ∀ s, s ∈ g.terminals ∨ s = Symbol.endMark → R s s) {form : List Symbol} {x : Symbol}
    (begins : g.Begins form x) : Leads R form x := by
  -- Backwards along a rewriting: what the body leads to is in the set of its name already.
  have step : ∀ {u v : List Symbol}, g.Rewrites u v → Leads R v x → Leads R u x := by
    intro u v rewrites
    obtain ⟨member, left, right⟩ := rewrites
    rename_i p
    have fold : ∀ y, Leads R p.body y → R p.name y := by
      intro y leads
      apply closed p member y
      rcases symbols_cases member with ⟨alone, body⟩ | ⟨_, body⟩
      · rw [body] at leads
        rw [alone]
        exact .mark leads
      · rwa [body] at leads
    rw [List.append_assoc, Leads.append_iff, Leads.append_iff, Leads.append_iff,
      Leads.cons_iff (name_ne_empty member)]
    intro leads
    rcases leads with front | ⟨front, ⟨other, here⟩ | ⟨here, after⟩⟩
    · exact Or.inl front
    · exact Or.inr ⟨front, Or.inl ⟨other, fold x here⟩⟩
    · exact Or.inr ⟨front, Or.inr ⟨fold _ here, after⟩⟩
  have back : ∀ {u v : List Symbol}, g.Derives u v → Leads R v x → Leads R u x := by
    intro u v derives leads
    induction derives using Relation.ReflTransGen.head_induction_on with
    | refl => exact leads
    | head first _ ih => exact step first ih
  rcases begins with ⟨mark, derives⟩ | ⟨kind, rest, derives⟩
  · subst mark
    exact back derives .nil
  · have plain := ne_empty_of_kind kind
    exact back derives (.head plain plain (itself x kind))

theorem begins_of_leads {α : List Symbol} {x : Symbol} {R : Symbol → Symbol → Prop}
    (sound : ∀ s ∈ α, s ≠ Symbol.empty → ∀ y, R s y → g.Begins [s] y) (leads : Leads R α x) :
    g.Begins (Symbol.written α) x := by
  induction leads with
  | nil => exact begins_empty.mpr (Derives.refl [])
  | mark _ ih =>
    rw [Symbol.written_empty]
    exact ih fun t member => sound t (by simp [member])
  | head plain other here =>
    rw [Symbol.written_cons plain]
    exact (sound _ (by simp) plain _ here).append other _
  | pass plain empty _ ih =>
    rw [Symbol.written_cons plain]
    have later := ih fun t member => sound t (by simp [member])
    have vanish := begins_empty.mp (sound _ (by simp) plain _ empty)
    exact later.of_derives (by simpa using vanish.append (Derives.refl _))

theorem leads_written {R : Symbol → Symbol → Prop} {α : List Symbol} {x : Symbol} :
    Leads R (Symbol.written α) x ↔ Leads R α x := by
  induction α with
  | nil => exact Iff.rfl
  | cons s α ih =>
    by_cases plain : s = Symbol.empty
    · rw [plain, Symbol.written_empty, Leads.mark_iff, ih]
    · rw [Symbol.written_cons plain, Leads.cons_iff plain, Leads.cons_iff plain, ih]

end Grammar

namespace First

variable {g : Grammar}

theorem initial_find (g : Grammar) (s : Symbol) :
    (initial g).find s =
      if s = Symbol.empty then .ok (.singleton Symbol.empty)
      else if s = Symbol.endMark then .ok (.singleton Symbol.endMark)
      else if s ∈ g.terminals then .ok (.singleton s)
      else if s ∈ g.nonterminals then .ok ∅
      else .error (.unknownSymbol s) := by
  have pairs : (initial g).entries =
      (Symbol.empty, .singleton Symbol.empty) :: (Symbol.endMark, .singleton Symbol.endMark) ::
        (g.terminals.toList.map (fun t => (t, .singleton t)) ++
          (g.nonterminals.toList.map (fun n => (n, ∅)) ++ [])) := by
    simp [initial]
  have find_nil : Family.find ⟨[]⟩ s = .error (.unknownSymbol s) := rfl
  rw [show initial g = ⟨(initial g).entries⟩ from rfl, pairs, Family.find_cons, Family.find_cons,
    Family.find_map_append, Family.find_map_append, find_nil]
  simp only [SymbolSet.mem_toList]

theorem initial_defines {s : Symbol} (known : s ∈ g.terminals ∨ s ∈ g.nonterminals) :
    (initial g).Defines s := by
  unfold Family.Defines
  rw [initial_find]
  rcases known with terminal | nonterminal
  · simp [Grammar.terminal_ne_empty terminal, Grammar.terminal_ne_endMark terminal, terminal]
  · have plain : ¬ s ∈ g.terminals := fun terminal => g.wellFormed.disjoint s terminal nonterminal
    simp [Grammar.nonterminal_ne_empty nonterminal, Grammar.nonterminal_ne_endMark nonterminal,
      plain, nonterminal]

theorem initial_has {s x : Symbol} :
    (initial g).Has s x ↔
      x = s ∧ (s = Symbol.empty ∨ s = Symbol.endMark ∨ s ∈ g.terminals) := by
  unfold Family.Has
  rw [initial_find]
  by_cases mark : s = Symbol.empty
  · simp [mark]
  by_cases last : s = Symbol.endMark
  · simp [last, Symbol.empty_ne_endMark.symm]
  by_cases terminal : s ∈ g.terminals
  · simp [mark, last, terminal]
  by_cases nonterminal : s ∈ g.nonterminals
  · have none : ¬ x ∈ (∅ : SymbolSet) := SymbolSet.not_mem_empty x
    simp [mark, last, terminal, nonterminal, none]
  · simp [mark, last, terminal, nonterminal]

/-- A family that says of each symbol of the grammar what its derivations begin with. -/
structure Exact (g : Grammar) (F : Family) : Prop where
  defines : ∀ s, s ∈ g.terminals ∨ s ∈ g.nonterminals → F.Defines s
  has_iff : ∀ s, s ∈ g.terminals ∨ s ∈ g.nonterminals ∨ s = Symbol.endMark →
    ∀ x, F.Has s x ↔ g.Begins [s] x

theorem Exact.of_settledOn {F : Family}
    (on : Family.SettledOn (Closed g.productions) (initial g) F) : Exact g F where
  defines := fun _ known => on.below.defines (initial_defines known)
  has_iff := by
    intro s known x
    have plain : s ≠ Symbol.empty := by
      rcases known with terminal | nonterminal | mark
      · exact Grammar.terminal_ne_empty terminal
      · exact Grammar.nonterminal_ne_empty nonterminal
      · exact fun same => Symbol.empty_ne_endMark (same ▸ mark)
    constructor
    · intro member
      have sound := on.least (fun t y => t ≠ Symbol.empty → g.Begins [t] y) ?_ ?_ s x member
      · exact sound plain
      · intro p rule y leads _
        have begins := Grammar.begins_of_leads (fun t _ other z here => here other) leads
        exact begins.of_derives (Grammar.Derives.of_production rule)
      · intro t y first other
        obtain ⟨rfl, kind⟩ := initial_has.mp first
        rcases kind with mark | kind
        · exact absurd mark other
        · exact Or.inr ⟨kind.symm, [], Grammar.Derives.refl _⟩
    · intro begins
      have itself : ∀ t, t ∈ g.terminals ∨ t = Symbol.endMark → F.Has t t :=
        fun t kind => on.below.has (initial_has.mpr ⟨rfl, Or.inr kind.symm⟩)
      exact (Leads.singleton_iff plain).mp (Grammar.leads_of_begins on.closed itself begins)

theorem Exact.leads_iff {F : Family} (exact : Exact g F) {α : List Symbol}
    (known : ∀ s ∈ α, s = Symbol.empty ∨ s ∈ g.terminals ∨ s ∈ g.nonterminals ∨
      s = Symbol.endMark) (x : Symbol) :
    Leads F.Has α x ↔ g.Begins (Symbol.written α) x := by
  have sound : ∀ s, s = Symbol.empty ∨ s ∈ g.terminals ∨ s ∈ g.nonterminals ∨
      s = Symbol.endMark → s ≠ Symbol.empty → ∀ y, F.Has s y → g.Begins [s] y :=
    fun s kind plain y member => (exact.has_iff s (kind.resolve_left plain) y).mp member
  constructor
  · exact Grammar.begins_of_leads fun s member => sound s (known s member)
  · intro begins
    rw [← Grammar.leads_written]
    refine Grammar.leads_of_begins ?_ ?_ begins
    · intro p rule y leads
      have declared : ∀ s ∈ p.symbols, s = Symbol.empty ∨ s ∈ g.terminals ∨
          s ∈ g.nonterminals ∨ s = Symbol.endMark :=
        fun s member => (g.wellFormed.symbol_declared p rule s member).imp id (Or.imp id Or.inl)
      have below := Grammar.begins_of_leads (fun s member => sound s (declared s member)) leads
      have name := g.wellFormed.name_declared p rule
      exact (exact.has_iff p.name (Or.inr (Or.inl name)) y).mpr
        (below.of_derives (Grammar.Derives.of_production rule))
    · intro s kind
      have itself : g.Begins [s] s := Or.inr ⟨kind, [], Grammar.Derives.refl _⟩
      exact (exact.has_iff s (kind.imp id Or.inr) s).mpr itself

theorem close_initial (g : Grammar) :
    ∃ settled, close g (initial g) = .ok settled ∧ Exact g settled.family := by
  obtain ⟨settled, result, on⟩ := close_ok (g := g) (F := initial g) fun _ => initial_defines
  exact ⟨settled, result, Exact.of_settledOn on⟩

end First

end TopDown
