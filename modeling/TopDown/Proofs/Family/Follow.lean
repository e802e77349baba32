import TopDown.Family.Follow
import TopDown.Proofs.Context
import TopDown.Proofs.Family.First

namespace TopDown

namespace Follow

def Stands (g : Grammar) (firsts : Family) (s x : Symbol) : Prop :=
  (s ∈ g.nonterminals ∧ firsts.Has s x) ∨ (¬ s ∈ g.nonterminals ∧ x = s)

/-- What can come next when a sequence is due, and after it what `T` says. -/
def Comes (R : Symbol → Symbol → Prop) (after : List Symbol) (T : Symbol → Prop) (x : Symbol) :
    Prop :=
  (x ≠ Symbol.empty ∧ Leads R after x) ∨ (Leads R after Symbol.empty ∧ T x)

theorem Comes.mono {R : Symbol → Symbol → Prop} {after : List Symbol} {S T : Symbol → Prop}
    (more : ∀ x, S x → T x) {x : Symbol} (h : Comes R after S x) : Comes R after T x :=
  h.imp id (And.imp id (more x))

def Demands (g : Grammar) (firsts : Family) (symbols : List Symbol) (T : Symbol → Prop)
    (R : Symbol → Symbol → Prop) : Prop :=
  ∀ before s after, symbols = before ++ s :: after → s ∈ g.nonterminals →
    ∀ x, Comes (Stands g firsts) after T x → R s x

def Closed (g : Grammar) (firsts : Family) (ps : List Production)
    (R : Symbol → Symbol → Prop) : Prop :=
  ∀ p ∈ ps, Demands g firsts p.symbols (R p.name) R

variable {g : Grammar} {firsts : Family}

theorem demands_cons {s : Symbol} {symbols : List Symbol} {T : Symbol → Prop}
    {R : Symbol → Symbol → Prop} :
    Demands g firsts (s :: symbols) T R ↔
      Demands g firsts symbols T R ∧
        (s ∈ g.nonterminals → ∀ x, Comes (Stands g firsts) symbols T x → R s x) := by
  constructor
  · intro h
    refine ⟨fun before t after same => ?_, h [] s symbols rfl⟩
    exact h (s :: before) t after (by simp [same])
  · intro h before t after same
    cases before with
    | nil =>
      obtain ⟨rfl, rfl⟩ := List.cons_eq_cons.mp same
      exact h.2
    | cons u before =>
      obtain ⟨rfl, rest⟩ := List.cons_eq_cons.mp same
      exact h.1 before t after rest

theorem comes_nonterminal {s : Symbol} (member : s ∈ g.nonterminals) {symbols : List Symbol}
    {T : Symbol → Prop} {x : Symbol} :
    Comes (Stands g firsts) (s :: symbols) T x ↔
      (x ≠ Symbol.empty ∧ firsts.Has s x) ∨
        (firsts.Has s Symbol.empty ∧ Comes (Stands g firsts) symbols T x) := by
  have plain := Grammar.nonterminal_ne_empty member
  have stands : ∀ y, Stands g firsts s y ↔ firsts.Has s y := by simp [Stands, member]
  simp only [Comes, Leads.cons_iff plain, stands]
  tauto

theorem comes_other {s : Symbol} (plain : s ≠ Symbol.empty) (other : ¬ s ∈ g.nonterminals)
    {symbols : List Symbol} {T : Symbol → Prop} {x : Symbol} :
    Comes (Stands g firsts) (s :: symbols) T x ↔ x = s := by
  have stands : ∀ y, Stands g firsts s y ↔ y = s := by simp [Stands, other]
  simp only [Comes, Leads.cons_iff plain, stands]
  constructor
  · intro h
    rcases h with ⟨_, ⟨_, same⟩ | ⟨mark, _⟩⟩ | ⟨⟨no, _⟩ | ⟨mark, _⟩, _⟩
    · exact same
    · exact absurd mark.symm plain
    · exact absurd rfl no
    · exact absurd mark.symm plain
  · intro same
    subst same
    exact Or.inl ⟨plain, Or.inl ⟨plain, rfl⟩⟩

theorem Demands.mono {symbols : List Symbol} {T : Symbol → Prop} {R S : Symbol → Symbol → Prop}
    (demands : Demands g firsts symbols T R) (more : ∀ s x, R s x → S s x) :
    Demands g firsts symbols T S :=
  fun before s after same member x comes => more s x (demands before s after same member x comes)

theorem sweepSymbols_ok (known : ∀ s, s ∈ g.nonterminals → firsts.Defines s)
    (symbols : List Symbol) (trailer : SymbolSet) {F : Family}
    (defined : ∀ s, s ∈ g.nonterminals → F.Defines s) :
    ∃ G passed grew, sweepSymbols g firsts symbols trailer F = (G, .ok (passed, grew)) ∧
      (∀ x, x ∈ passed ↔ Comes (Stands g firsts) symbols (· ∈ trailer) x) ∧
        F.Improves (Demands g firsts symbols (· ∈ trailer)) G grew ∧
          Demands g firsts symbols (· ∈ trailer) G.Has := by
  induction symbols with
  | nil =>
    refine ⟨F, trailer, false, rfl, fun x => by simp [Comes, Leads.nil_iff], ?_, by simp [Demands]⟩
    exact (Family.Improves.nothing F).congr (fun _ => by simp [Demands]) (fun _ _ _ => trivial)
  | cons s symbols ih =>
    -- The sweep comes from the right, so the symbols after this one have been gone through.
    obtain ⟨G, passed, grew, swept, spec, improves, met⟩ := ih
    by_cases plain : s = Symbol.empty
    · subst plain
      have other : ¬ Symbol.empty ∈ g.nonterminals :=
        fun member => Grammar.nonterminal_ne_empty member rfl
      refine ⟨G, passed, grew, by simp [sweepSymbols, swept], ?_, ?_, ?_⟩
      · intro x
        simpa only [Comes, Leads.mark_iff] using spec x
      · exact improves.congr (fun h => demands_cons.mpr ⟨h, fun member => absurd member other⟩)
          (fun R _ h => (demands_cons.mp h).1)
      · exact demands_cons.mpr ⟨met, fun member => absurd member other⟩
    by_cases member : s ∈ g.nonterminals
    · obtain ⟨first, foundFirst⟩ := known s member
      obtain ⟨old, found⟩ := improves.below.defines (defined s member)
      have isNonterminal : g.isNonterminal s = true := by simp [Grammar.isNonterminal, member]
      refine ⟨G.enlarge s passed,
        if Symbol.empty ∈ first then passed.union (first.erase Symbol.empty) else first,
        !passed.subset old || grew, ?_, ?_, ?_, ?_⟩
      · simp [sweepSymbols, swept, plain, isNonterminal, found, foundFirst]
      · intro x
        rw [comes_nonterminal member, Family.has_iff foundFirst, Family.has_iff foundFirst, ← spec]
        by_cases empty : Symbol.empty ∈ first
        · simp only [empty, if_true, SymbolSet.mem_union, SymbolSet.mem_erase, true_and]
          tauto
        · have unmarked : x ∈ first → x ≠ Symbol.empty := fun inside mark => empty (mark ▸ inside)
          simp only [empty, if_false, false_and, or_false]
          exact ⟨fun inside => ⟨unmarked inside, inside⟩, And.right⟩
      · rw [Bool.or_comm]
        have both := improves.and_then (Family.improves_enlarge found passed)
        refine both.congr (fun h => demands_cons.mpr ⟨h.1, fun _ x comes => ?_⟩) (fun R _ h => ?_)
        · exact h.2 x ((spec x).mpr comes)
        · obtain ⟨rest, here⟩ := demands_cons.mp h
          exact ⟨rest, fun x inside => here member x ((spec x).mp inside)⟩
      · have larger := Family.has_enlarge ⟨old, found⟩ passed
        refine demands_cons.mpr ⟨met.mono fun t x held => ?_, fun _ x comes => ?_⟩
        · exact (larger t x).mpr (Or.inl held)
        · exact (larger s x).mpr (Or.inr ⟨rfl, (spec x).mpr comes⟩)
    · have isNonterminal : g.isNonterminal s = false := by simp [Grammar.isNonterminal, member]
      refine ⟨G, .singleton s, grew, by simp [sweepSymbols, swept, plain, isNonterminal], ?_, ?_, ?_⟩
      · intro x
        rw [comes_other plain member, SymbolSet.mem_singleton]
      · exact improves.congr (fun h => demands_cons.mpr ⟨h, fun inside => absurd inside member⟩)
          (fun R _ h => (demands_cons.mp h).1)
      · exact demands_cons.mpr ⟨met, fun inside => absurd inside member⟩

theorem sweepProduction_ok (known : ∀ s, s ∈ g.nonterminals → firsts.Defines s)
    {p : Production} (name : p.name ∈ g.nonterminals) {F : Family}
    (defined : ∀ s, s ∈ g.nonterminals → F.Defines s) :
    ∃ G grew, sweepProduction g firsts p F = (G, .ok grew) ∧
      F.Improves (fun R => Demands g firsts p.symbols (R p.name) R) G grew := by
  obtain ⟨trailer, found⟩ := defined p.name name
  obtain ⟨G, passed, grew, swept, _, improves, _⟩ :=
    sweepSymbols_ok known p.symbols trailer defined
  refine ⟨G, grew, by simp [sweepProduction, found, swept, Except.map], ?_⟩
  refine improves.congr ?_ ?_
  · intro h before s after same member x comes
    exact h before s after same member x
      (comes.mono fun y inside => (Family.has_iff found y).mp inside)
  · intro R included h before s after same member x comes
    exact h before s after same member x
      (comes.mono fun y inside => included p.name y ((Family.has_iff found y).mpr inside))

theorem sweepProductions_ok (known : ∀ s, s ∈ g.nonterminals → firsts.Defines s)
    {ps : List Production} (names : ∀ p ∈ ps, p.name ∈ g.nonterminals) {F : Family}
    (defined : ∀ s, s ∈ g.nonterminals → F.Defines s) :
    ∃ G grew, sweepProductions g firsts ps F = (G, .ok grew) ∧
      F.Improves (Closed g firsts ps) G grew := by
  induction ps generalizing F with
  | nil =>
    have nothing := Family.Improves.nothing F
    exact ⟨F, false, rfl, nothing.congr (fun _ => by simp [Closed]) (fun _ _ _ => trivial)⟩
  | cons p ps ih =>
    obtain ⟨G, here, swept, improves⟩ := sweepProduction_ok known (names p (by simp)) defined
    obtain ⟨H, later, sweptRest, improvesRest⟩ := ih (fun q member => names q (by simp [member]))
      (fun s member => improves.below.defines (defined s member))
    refine ⟨H, here || later, ?_, ?_⟩
    · simp only [sweepProductions, swept, sweptRest, Except.map]
    · have both := improves.and_then improvesRest
      refine both.congr (fun closed => ?_) (fun R _ closed => ?_)
      · exact List.forall_mem_cons.mpr closed
      · exact List.forall_mem_cons.mp closed

theorem close_ok (known : ∀ s, s ∈ g.nonterminals → firsts.Defines s) {F : Family}
    (complete : ∀ s, s ∈ g.nonterminals → F.Defines s) :
    ∃ settled, close g firsts F = .ok settled ∧
      Family.SettledOn (Closed g firsts g.productions) F settled.family := by
  refine Family.settle_ok ((F.members.union firsts.members).union g.terminals) ?_ ?_ complete ?_
    (Nat.lt_succ_self _)
  · intro p rule before s after same _ x comes
    rcases comes with ⟨other, leads⟩ | ⟨_, inside⟩
    · rcases leads.mem with mark | ⟨t, inside, ⟨_, first⟩ | ⟨outside, rfl⟩⟩
      · exact absurd mark other
      · simp [first.mem_members]
      · have written : x ∈ p.symbols := by simp [same, inside]
        rcases g.wellFormed.symbol_declared p rule x written with mark | terminal | nonterminal
        · exact absurd mark other
        · simp [terminal]
        · exact absurd nonterminal outside
    · exact inside
  · intro G defined
    exact sweepProductions_ok known (g.wellFormed.name_declared) defined
  · intro s x member
    simp [member.mem_members]

end Follow

namespace Grammar

variable {g : Grammar}

def Next (g : Grammar) (form : List Symbol) (T : Symbol → Prop) (x : Symbol) : Prop :=
  (x ≠ Symbol.empty ∧ g.Begins form x) ∨ (g.Derives form [] ∧ T x)

/-- What can stand right after a nonterminal: a terminal, in a form that some nonterminal derives,
or the end of the input, after a form that the start symbol derives. -/
def Precedes (g : Grammar) (name x : Symbol) : Prop :=
  (x ∈ g.terminals ∧ ∃ root ∈ g.nonterminals, ∃ left right,
    g.Derives [root] (left ++ name :: x :: right)) ∨
    (x = Symbol.endMark ∧ ∃ left, g.Derives [g.start] (left ++ [name]))

theorem begins_terminal {s x : Symbol} (terminal : s ∈ g.terminals) (begins : g.Begins [s] x) :
    x = s := by
  have word : g.IsWord [s] := isWord_nil.cons terminal
  rcases begins with ⟨_, derives⟩ | ⟨_, rest, derives⟩
  · cases derives.eq_of_isWord word
  · exact (List.cons_eq_cons.mp (derives.eq_of_isWord word)).1

theorem Begins.split {u v : List Symbol} {x : Symbol} (begins : g.Begins (u ++ v) x) :
    (x ≠ Symbol.empty ∧ g.Begins u x) ∨ (g.Derives u [] ∧ g.Begins v x) := by
  rcases begins with ⟨mark, derives⟩ | ⟨kind, rest, derives⟩
  · obtain ⟨first, second⟩ := derives.nil_of_append
    exact Or.inr ⟨first, Or.inl ⟨mark, second⟩⟩
  · obtain ⟨u', v', whole, first, second⟩ := derives.split
    cases u' with
    | nil => exact Or.inr ⟨first, Or.inr ⟨kind, rest, whole ▸ second⟩⟩
    | cons y u' =>
      obtain ⟨rfl, _⟩ := List.cons_eq_cons.mp whole
      exact Or.inl ⟨ne_empty_of_kind kind, Or.inr ⟨kind, u', first⟩⟩

theorem Derives.declared {u v : List Symbol} (h : g.Derives u v)
    (known : ∀ s ∈ u, s ∈ g.terminals ∨ s ∈ g.nonterminals) :
    ∀ s ∈ v, s ∈ g.terminals ∨ s ∈ g.nonterminals := by
  induction h with
  | refl => exact known
  | tail _ step ih =>
    obtain ⟨rule, left, right⟩ := step
    intro s member
    simp only [List.mem_append] at member
    rcases member with (before | inside) | after
    · exact ih s (by simp [before])
    · exact mem_body rule inside
    · exact ih s (by simp [after])

theorem declared_singleton {s : Symbol} (nonterminal : s ∈ g.nonterminals) :
    ∀ r ∈ [s], r ∈ g.terminals ∨ r ∈ g.nonterminals := by
  intro r member
  obtain rfl := List.mem_singleton.mp member
  exact Or.inr nonterminal

theorem Next.mono {form : List Symbol} {S T : Symbol → Prop} {x : Symbol} (next : g.Next form S x)
    (sub : S x → T x) : g.Next form T x :=
  next.imp id (And.imp id sub)

theorem next_append {u v : List Symbol} {T : Symbol → Prop} {x : Symbol} :
    g.Next (u ++ v) T x ↔ g.Next u (g.Next v T) x := by
  constructor
  · intro next
    rcases next with ⟨plain, begins⟩ | ⟨vanish, after⟩
    · rcases begins.split with first | ⟨empty, second⟩
      · exact Or.inl first
      · exact Or.inr ⟨empty, Or.inl ⟨plain, second⟩⟩
    · obtain ⟨first, second⟩ := vanish.nil_of_append
      exact Or.inr ⟨first, Or.inr ⟨second, after⟩⟩
  · intro next
    rcases next with ⟨plain, begins⟩ | ⟨first, ⟨plain, begins⟩ | ⟨second, after⟩⟩
    · exact Or.inl ⟨plain, begins.append plain v⟩
    · exact Or.inl ⟨plain, begins.of_derives (first.append (Derives.refl v))⟩
    · exact Or.inr ⟨first.append second, after⟩

theorem next_terminal {s x : Symbol} {T : Symbol → Prop} (terminal : s ∈ g.terminals) :
    g.Next [s] T x ↔ x = s := by
  constructor
  · intro next
    rcases next with ⟨_, begins⟩ | ⟨vanish, _⟩
    · exact begins_terminal terminal begins
    · cases vanish.eq_of_isWord (isWord_nil.cons terminal)
  · rintro rfl
    exact Or.inl ⟨terminal_ne_empty terminal, Or.inr ⟨Or.inl terminal, [], Derives.refl [x]⟩⟩

theorem Context.next {R : Symbol → Symbol → Prop}
    (closed : ∀ p ∈ g.productions, ∀ before s after, p.body = before ++ s :: after →
      s ∈ g.nonterminals → ∀ x, g.Next after (R p.name) x → R s x)
    {form left right : List Symbol} {s : Symbol} (context : g.Context form left s right)
    {p : Production} (member : p ∈ g.productions) (body : p.body = form)
    (nonterminal : s ∈ g.nonterminals) {x : Symbol} (next : g.Next right (R p.name) x) :
    R s x := by
  induction context generalizing p with
  | here _ last =>
    apply closed p member _ _ _ body nonterminal
    exact next.imp (And.imp id (Begins.of_derives last)) (And.imp last.trans id)
  | @within before after _ right inner outer s q rule first last inside ih =>
    have around : ∀ y, g.Next right (R p.name) y → R q.name y := by
      intro y comes
      apply closed p member _ _ _ body (g.wellFormed.name_declared q rule)
      exact comes.imp (And.imp id (Begins.of_derives last)) (And.imp last.trans id)
    refine ih rule rfl nonterminal ?_
    rcases next with ⟨other, begins⟩ | ⟨vanish, after⟩
    · rcases begins.split with here | ⟨empty, later⟩
      · exact Or.inl here
      · exact Or.inr ⟨empty, around x (Or.inl ⟨other, later⟩)⟩
    · obtain ⟨here, later⟩ := vanish.nil_of_append
      exact Or.inr ⟨here, around x (Or.inr ⟨later, after⟩)⟩

/-- A relation that no production enlarges, with the end of the input after the start symbol, covers
what stands after nonterminals. -/
theorem Precedes.covered {R : Symbol → Symbol → Prop}
    (closed : ∀ p ∈ g.productions, ∀ before s after, p.body = before ++ s :: after →
      s ∈ g.nonterminals → ∀ x, g.Next after (R p.name) x → R s x)
    (last : R g.start Symbol.endMark) {name x : Symbol} (nonterminal : name ∈ g.nonterminals)
    (h : g.Precedes name x) : R name x := by
  rcases h with ⟨terminal, root, _, left, right, derives⟩ | ⟨mark, left, derives⟩
  · have here : g.Next (x :: right) (R root) x :=
      Or.inl ⟨terminal_ne_empty terminal, Or.inr ⟨Or.inl terminal, right, Derives.refl _⟩⟩
    rcases (Context.of_derives derives).of_name with ⟨_, _, none⟩ | ⟨p, rule, same, inside⟩
    · cases none
    · exact inside.next closed rule rfl nonterminal (same ▸ here)
  · subst mark
    have atEnd : g.Next [] (R g.start) Symbol.endMark := Or.inr ⟨Derives.refl [], last⟩
    rcases (Context.of_derives derives).of_name with ⟨same, _, _⟩ | ⟨p, rule, same, inside⟩
    · exact same ▸ last
    · exact inside.next closed rule rfl nonterminal (same ▸ atEnd)

theorem Precedes.of_ending {r s x : Symbol} {front : List Symbol}
    (ends : g.Derives [r] (front ++ [s])) (precedes : g.Precedes r x) : g.Precedes s x := by
  rcases precedes with ⟨terminal, root, nonterminal, left, right, derives⟩ | ⟨mark, left, derives⟩
  · have inner := ends.context left (x :: right)
    refine Or.inl ⟨terminal, root, nonterminal, left ++ front, right, ?_⟩
    exact derives.trans (by simpa using inner)
  · have inner := ends.context left []
    exact Or.inr ⟨mark, left ++ front, derives.trans (by simpa using inner)⟩

theorem Precedes.of_form {root s x : Symbol} {before after : List Symbol}
    (nonterminal : root ∈ g.nonterminals) (form : g.Derives [root] (before ++ s :: after))
    (next : g.Next after (g.Precedes root) x) : g.Precedes s x := by
  rcases next with ⟨other, begins⟩ | ⟨vanish, precedes⟩
  · rcases begins with ⟨mark, _⟩ | ⟨kind, rest, derives⟩
    · exact absurd mark other
    · have later := (Derives.refl before).append ((Derives.refl [s]).append derives)
      have whole : g.Derives [root] (before ++ s :: x :: rest) := form.trans later
      have declared := whole.declared (declared_singleton nonterminal) x (by simp)
      have terminal := terminal_of_declared kind declared
      exact Or.inl ⟨terminal, root, nonterminal, before, rest, whole⟩
  · have ends : g.Derives [root] (before ++ [s]) :=
      form.trans (by simpa using (Derives.refl (before ++ [s])).append vanish)
    exact precedes.of_ending ends

theorem Precedes.of_body {p : Production} (member : p ∈ g.productions)
    {before after : List Symbol} {s : Symbol} (body : p.body = before ++ s :: after) {x : Symbol}
    (next : g.Next after (g.Precedes p.name) x) : g.Precedes s x :=
  of_form (g.wellFormed.name_declared p member) (body ▸ Derives.of_production member) next

theorem precedes_of_next {s x : Symbol} {before after : List Symbol}
    (form : g.Derives [g.start] (before ++ s :: after))
    (next : g.Next after (· = Symbol.endMark) x) : g.Precedes s x :=
  Precedes.of_form g.start_mem form
    (next.mono fun mark => Or.inr ⟨mark, [], Derives.refl [g.start]⟩)

end Grammar

namespace Follow

variable {g : Grammar} {firsts : Family}

theorem leads_stands (exact : First.Exact g firsts) {α : List Symbol}
    (known : ∀ s ∈ α, s = Symbol.empty ∨ s ∈ g.terminals ∨ s ∈ g.nonterminals) (x : Symbol) :
    Leads (Stands g firsts) α x ↔ g.Begins (Symbol.written α) x := by
  constructor
  · refine Grammar.begins_of_leads ?_
    intro s member plain y stands
    rcases stands with ⟨nonterminal, first⟩ | ⟨other, same⟩
    · exact (exact.has_iff s (Or.inr (Or.inl nonterminal)) y).mp first
    · subst same
      rcases known y member with mark | terminal | nonterminal
      · exact absurd mark plain
      · exact Or.inr ⟨Or.inl terminal, [], Grammar.Derives.refl _⟩
      · exact absurd nonterminal other
  · intro begins
    have leads := (exact.leads_iff
      (fun s inside => (known s inside).imp id (Or.imp id Or.inl)) x).mpr begins
    refine leads.mono ?_
    intro s member plain y first
    rcases known s member with mark | terminal | nonterminal
    · exact absurd mark plain
    · have same := Grammar.begins_terminal terminal
        ((exact.has_iff s (Or.inl terminal) y).mp first)
      exact Or.inr ⟨g.wellFormed.disjoint s terminal, same⟩
    · exact Or.inl ⟨nonterminal, first⟩

theorem comes_iff_next (exact : First.Exact g firsts) {α : List Symbol}
    (known : ∀ s ∈ α, s = Symbol.empty ∨ s ∈ g.terminals ∨ s ∈ g.nonterminals)
    {T : Symbol → Prop} {x : Symbol} :
    Comes (Stands g firsts) α T x ↔ g.Next (Symbol.written α) T x := by
  simp only [Comes, Grammar.Next, leads_stands exact known, Grammar.begins_empty]

theorem initial_find (g : Grammar) (s : Symbol) :
    (initial g).find s =
      if s ∈ g.nonterminals then
        .ok (if s = g.start then .singleton Symbol.endMark else ∅)
      else .error (.unknownSymbol s) := by
  have pairs : (initial g).entries = g.nonterminals.toList.map
      (fun n => (n, if n = g.start then SymbolSet.singleton Symbol.endMark else ∅)) ++ [] := by
    simp [initial]
  have find_nil : Family.find ⟨[]⟩ s = .error (.unknownSymbol s) := rfl
  rw [show initial g = ⟨(initial g).entries⟩ from rfl, pairs, Family.find_map_append, find_nil]
  simp only [SymbolSet.mem_toList]

theorem initial_defines {s : Symbol} (member : s ∈ g.nonterminals) : (initial g).Defines s := by
  unfold Family.Defines
  rw [initial_find]
  simp [member]

theorem initial_has {s x : Symbol} :
    (initial g).Has s x ↔ s = g.start ∧ x = Symbol.endMark := by
  unfold Family.Has
  rw [initial_find]
  have none : ¬ x ∈ (∅ : SymbolSet) := SymbolSet.not_mem_empty x
  by_cases start : s = g.start
  · simp [start, g.start_mem]
  · by_cases member : s ∈ g.nonterminals <;> simp [start, member, none]

structure Exact (g : Grammar) (F : Family) : Prop where
  defines : ∀ s, s ∈ g.nonterminals → F.Defines s
  has_iff : ∀ s, s ∈ g.nonterminals → ∀ x, F.Has s x ↔ g.Precedes s x

theorem Exact.of_settledOn (exact : First.Exact g firsts) {F : Family}
    (on : Family.SettledOn (Closed g firsts g.productions) (initial g) F) : Exact g F where
  defines := fun _ member => on.below.defines (initial_defines member)
  has_iff := by
    intro name member x
    constructor
    · refine on.least g.Precedes ?_ ?_ name x
      · intro p rule before s after same nonterminal y comes
        have known : ∀ t ∈ after, t = Symbol.empty ∨ t ∈ g.terminals ∨ t ∈ g.nonterminals :=
          fun t inside => g.wellFormed.symbol_declared p rule t (by simp [same, inside])
        have body : p.body = Symbol.written before ++ s :: Symbol.written after := by
          rw [Production.body, same, Symbol.written_append,
            Symbol.written_cons (Grammar.nonterminal_ne_empty nonterminal)]
        exact Grammar.Precedes.of_body rule body ((comes_iff_next exact known).mp comes)
      · intro s y first
        obtain ⟨rfl, rfl⟩ := initial_has.mp first
        exact Or.inr ⟨rfl, [], Grammar.Derives.refl _⟩
    · intro precedes
      refine Grammar.Precedes.covered ?_ (on.below.has (initial_has.mpr ⟨rfl, rfl⟩)) member precedes
      intro p rule before s after body nonterminal y next
      rcases Grammar.symbols_cases rule with ⟨_, none⟩ | ⟨plain, same⟩
      · simp [none] at body
      · have symbols : p.symbols = before ++ s :: after := same ▸ body
        have known : ∀ t ∈ after, t = Symbol.empty ∨ t ∈ g.terminals ∨ t ∈ g.nonterminals :=
          fun t inside => g.wellFormed.symbol_declared p rule t (by simp [symbols, inside])
        have unmarked : Symbol.written after = after :=
          Symbol.written_eq_self fun mark => plain (by simp [symbols, mark])
        refine on.closed p rule before s after symbols nonterminal y ?_
        rw [comes_iff_next exact known, unmarked]
        exact next

theorem close_initial (exact : First.Exact g firsts) :
    ∃ settled, close g firsts (initial g) = .ok settled ∧ Exact g settled.family := by
  obtain ⟨settled, result, on⟩ :=
    close_ok (F := initial g)
      (fun s member => exact.defines s (Or.inr member)) fun _ => initial_defines
  exact ⟨settled, result, Exact.of_settledOn exact on⟩

end Follow

end TopDown
