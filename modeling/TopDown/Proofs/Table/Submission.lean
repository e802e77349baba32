import TopDown.Proofs.Table.Publication

namespace TopDown.Draft

variable {g : Grammar} {cs : List Call} {d : Draft} {submitted others : List Submission}
  {s token x : Symbol} {p : Production}

/-- What a call submits; a name without a row is refused. -/
def submission? (g : Grammar) : Call → Option Submission
  | .enter token p => if p.name ∈ g.nonterminals then some (token, p) else none
  | .publish => none

def submissions (g : Grammar) (cs : List Call) : List Submission := cs.filterMap (submission? g)

/-- What calls make of the draft of a grammar. -/
structure Accounts (g : Grammar) (cs : List Call) (d : Draft) : Prop where
  fails_iff : ∀ token p, (∃ e, d.enter token p = .error e) ↔ ¬ p.name ∈ g.nonterminals
  fails_unchanged : ∀ token p, ¬ p.name ∈ g.nonterminals →
    d.enter token p = .error (.unknownSymbol p.name) ∧ d.call (.enter token p) = d
  lookup_eq : ∀ (t : Published) s x, (t.read d).lookup s x =
    if s ∈ g.nonterminals then .ok (holder (submissions g cs) s x) else .error (.unknownSymbol s)
  conflicts_eq : d.conflicts = clashes [] (submissions g cs)
  publish_eq : d.publish =
    if d.conflicts = [] then .ok ⟨g.start, g.terminals⟩ else .error d.conflicts
  refused_iff : (∃ found, d.publish = .error found) ↔ ∃ token p q, .enter token p ∈ cs ∧
    .enter token q ∈ cs ∧ p.name ∈ g.nonterminals ∧ p.name = q.name ∧ p ≠ q

theorem mem_submissions : (token, p) ∈ submissions g cs ↔
    .enter token p ∈ cs ∧ p.name ∈ g.nonterminals := by
  rw [submissions, List.mem_filterMap]
  constructor
  · intro ⟨c, member, submits⟩
    cases c with
    | enter token' q =>
      by_cases known : q.name ∈ g.nonterminals
      · rw [submission?, if_pos known] at submits
        cases submits
        exact ⟨member, known⟩
      · rw [submission?, if_neg known] at submits
        cases submits
    | publish => cases submits
  · intro ⟨member, known⟩
    exact ⟨_, member, if_pos known⟩

variable (records : Records g submitted d)
include records

theorem Records.lookup_eq (t : Published) (s x : Symbol) : (t.read d).lookup s x =
    if s ∈ g.nonterminals then .ok (holder submitted s x) else .error (.unknownSymbol s) := by
  by_cases known : s ∈ g.nonterminals
  · obtain ⟨row, found, cells⟩ := records.row s (Grammar.mem_nonterminalList.mpr known)
    simp [Table.lookup, Table.row, Published.read, found, cells, known, Except.map]
  · have absent := Grammar.lookup_none records.names_eq known
    simp [Table.lookup, Table.row, Published.read, absent, known, Except.map]

theorem Records.publish_eq : d.publish =
    if d.conflicts = [] then .ok ⟨g.start, g.terminals⟩ else .error d.conflicts := by
  simp [Draft.publish, records.start_eq, records.terminals_eq]

theorem Records.published {t : Published} (published : d.publish = .ok t) :
    d.conflicts = [] ∧ t = ⟨g.start, g.terminals⟩ := by
  rw [records.publish_eq] at published
  split at published
  · exact ⟨‹_›, (Except.ok.inj published).symm⟩
  · cases published

theorem Records.refused_iff : (∃ found, d.publish = .error found) ↔ ¬ d.conflicts = [] := by
  rw [records.publish_eq]
  split <;> simp [*]

theorem Records.enter_foreign (token : Symbol) (foreign : ¬ p.name ∈ g.nonterminals) :
    d.enter token p = .error (.unknownSymbol p.name) := by
  simp [Draft.enter, Grammar.lookup_none records.names_eq foreign]

theorem Records.enter_error_iff (token : Symbol) (p : Production) :
    (∃ e, d.enter token p = .error e) ↔ ¬ p.name ∈ g.nonterminals := by
  constructor
  · intro ⟨e, failed⟩ known
    obtain ⟨d', entered, _⟩ := records.enter token (Grammar.mem_nonterminalList.mpr known)
    rw [entered] at failed
    cases failed
  · intro foreign
    exact ⟨_, records.enter_foreign token foreign⟩

theorem Records.call (c : Call) :
    Records g (submitted ++ (submission? g c).toList) (d.call c) := by
  cases c with
  | enter token p =>
    by_cases known : p.name ∈ g.nonterminals
    · obtain ⟨d', entered, records'⟩ := records.enter token (Grammar.mem_nonterminalList.mpr known)
      simpa [submission?, known, Draft.call, entered] using records'
    · have failed := records.enter_foreign token known
      simpa [submission?, known, Draft.call, failed] using records
  | publish => simpa [submission?, Draft.call] using records

theorem Records.calls (cs : List Call) :
    Records g (submitted ++ submissions g cs) (d.calls cs) := by
  induction cs generalizing submitted d with
  | nil => simpa [submissions, Draft.calls] using records
  | cons c rest ih =>
    have last := ih (records.call c)
    have split : submissions g (c :: rest) = (submission? g c).toList ++ submissions g rest := by
      unfold submissions
      cases found : submission? g c <;> simp [found]
    rw [split, ← List.append_assoc]
    exact last

omit records

theorem records_calls (g : Grammar) (cs : List Call) :
    Records g (submissions g cs) ((ofGrammar g).calls cs) :=
  (records_ofGrammar g).calls cs

theorem clashes_submissions_iff (g : Grammar) (cs : List Call) :
    ¬ clashes [] (submissions g cs) = [] ↔ ∃ token p q, .enter token p ∈ cs ∧
      .enter token q ∈ cs ∧ p.name ∈ g.nonterminals ∧ p.name = q.name ∧ p ≠ q := by
  rw [clashes_eq_nil_iff]
  push Not
  simp only [mem_submissions]
  constructor
  · rintro ⟨token, p, q, ⟨hp, known⟩, ⟨hq, _⟩, same, other⟩
    exact ⟨token, p, q, hp, hq, known, same, other⟩
  · rintro ⟨token, p, q, hp, hq, known, same, other⟩
    exact ⟨token, p, q, ⟨hp, known⟩, ⟨hq, same ▸ known⟩, same, other⟩

theorem accounts (g : Grammar) (cs : List Call) : Accounts g cs ((ofGrammar g).calls cs) := by
  have records := records_calls g cs
  refine {
    fails_iff := records.enter_error_iff
    fails_unchanged := fun token p foreign => ?_
    lookup_eq := records.lookup_eq
    conflicts_eq := records.conflicts_eq
    publish_eq := records.publish_eq
    refused_iff := ?_ }
  · have failed := records.enter_foreign token foreign
    exact ⟨failed, by simp [call, failed]⟩
  · rw [records.refused_iff, records.conflicts_eq, clashes_submissions_iff]

theorem holder_eq_some_iff (free : clashes [] submitted = []) :
    holder submitted s x = some p ↔ (x, p) ∈ submitted ∧ p.name = s := by
  constructor
  · exact holder_eq_some
  · intro ⟨member, name⟩
    obtain ⟨held, found⟩ := holder_of_mem member
    dsimp only at found
    rw [name] at found
    obtain ⟨inside, name'⟩ := holder_eq_some found
    rw [found, clashes_eq_nil_iff.mp free x held p inside member (name'.trans name.symm)]

theorem clashes_perm (reordered : submitted.Perm others) :
    clashes [] submitted = [] ↔ clashes [] others = [] := by
  simp only [clashes_eq_nil_iff, reordered.mem_iff]

theorem holder_perm (reordered : submitted.Perm others) (free : clashes [] submitted = [])
    (s x : Symbol) : holder submitted s x = holder others s x := by
  ext p
  rw [holder_eq_some_iff free, holder_eq_some_iff ((clashes_perm reordered).mp free),
    reordered.mem_iff]

/-- Calls on the draft of a grammar fail for names that have no row, and the first production that
they submit for a cell stays there. Their order decides neither whether the draft can be published
nor what is in it if so. -/
theorem calls_outcome (g : Grammar) (cs : List Call) :
    Accounts g cs ((ofGrammar g).calls cs) ∧ ∀ ds, cs.Perm ds →
      ((∃ found, ((ofGrammar g).calls cs).publish = .error found) ↔
        ∃ found, ((ofGrammar g).calls ds).publish = .error found) ∧
      ∀ t, ((ofGrammar g).calls cs).publish = .ok t → ((ofGrammar g).calls ds).publish = .ok t ∧
        ∀ s x, (t.after g cs).lookup s x = (t.after g ds).lookup s x := by
  refine ⟨accounts g cs, fun ds reordered => ?_⟩
  have records := records_calls g cs
  have records' := records_calls g ds
  have submitted : (submissions g cs).Perm (submissions g ds) := reordered.filterMap _
  have verdict : ((ofGrammar g).calls cs).conflicts = [] ↔
      ((ofGrammar g).calls ds).conflicts = [] := by
    rw [records.conflicts_eq, records'.conflicts_eq, clashes_perm submitted]
  refine ⟨?_, fun t published => ?_⟩
  · rw [records.refused_iff, records'.refused_iff, verdict]
  · obtain ⟨free, rfl⟩ := records.published published
    refine ⟨by rw [records'.publish_eq, if_pos (verdict.mp free)], fun s x => ?_⟩
    have cells := holder_perm submitted (records.conflicts_eq ▸ free) s x
    rw [Published.after, Published.after, records.lookup_eq, records'.lookup_eq, cells]

end Draft

namespace Sample

open Draft

def foreignEntry : Call := .enter "a" ⟨"X", ["a"], 0⟩

def entries : List Call := [rootEntry, .publish, foreignEntry, nestedEntry, rootEntry]

theorem textbook_calls_outcome :
    ((ofGrammar textbookGrammar).calls entries).publish = .ok textbookPublished ∧
    Accounts textbookGrammar entries ((ofGrammar textbookGrammar).calls entries) ∧
    entries.Perm entries.reverse ∧ entries ≠ entries.reverse ∧
    ((ofGrammar textbookGrammar).calls entries.reverse).publish = .ok textbookPublished ∧
    ∀ s x, (textbookPublished.after textbookGrammar entries).lookup s x =
      (textbookPublished.after textbookGrammar entries.reverse).lookup s x := by
  have published : ((ofGrammar textbookGrammar).calls entries).publish = .ok textbookPublished := by
    decide +kernel
  have reordered : entries.Perm entries.reverse := (List.reverse_perm entries).symm
  obtain ⟨accounts, order⟩ := calls_outcome textbookGrammar entries
  obtain ⟨_, same⟩ := order _ reordered
  obtain ⟨again, cells⟩ := same _ published
  exact ⟨published, accounts, reordered, by simp [entries, rootEntry, nestedEntry], again, cells⟩

end Sample

end TopDown
