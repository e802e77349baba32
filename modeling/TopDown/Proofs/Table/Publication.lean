import TopDown.Proofs.Parse.Run
import TopDown.Proofs.Table.Outcome
import TopDown.Table.Layout

namespace TopDown

structure Table.SameAnswers (t u : Table) : Prop where
  lookup_eq : ∀ s x, t.lookup s x = u.lookup s x
  expected_eq : ∀ s, t.expected s = u.expected s
  format_eq : t.format = u.format
  parse_eq : ∀ tokens, t.parse tokens = u.parse tokens

namespace Draft

inductive Call where
  | enter (token : Symbol) (p : Production)
  | publish

def call (d : Draft) : Call → Draft
  | .enter token p =>
    match d.enter token p with
    | .ok d => d
    | .error _ => d
  | .publish => d

def calls (d : Draft) (cs : List Call) : Draft := cs.foldl call d

/-- A published table as it reads after calls on the draft of a grammar. -/
def Published.after (t : Published) (g : Grammar) (cs : List Call) : Table :=
  t.read ((ofGrammar g).calls cs)

variable {d e f : Draft} {c : Call} {cs : List Call} {s token x : Symbol} {p : Production} {row : Row}

def Free (d : Draft) (s x : Symbol) : Prop :=
  ∃ row, d.rows.lookup s = some row ∧ row.lookup x = none

structure Keeps (d e : Draft) : Prop where
  start_eq : d.start = e.start
  terminals_eq : d.terminals = e.terminals
  row : ∀ {s row}, d.rows.lookup s = some row → ∃ row', e.rows.lookup s = some row' ∧
    ∀ x p, row.lookup x = some p → row'.lookup x = some p

theorem Keeps.refl (d : Draft) : d.Keeps d := ⟨rfl, rfl, fun found => ⟨_, found, fun _ _ => id⟩⟩

theorem Keeps.trans (first : d.Keeps e) (second : e.Keeps f) : d.Keeps f := by
  refine ⟨first.start_eq.trans second.start_eq, first.terminals_eq.trans second.terminals_eq, ?_⟩
  intro s row found
  obtain ⟨middle, found', kept⟩ := first.row found
  obtain ⟨last, found'', kept'⟩ := second.row found'
  exact ⟨last, found'', fun x p inside => kept' x p (kept x p inside)⟩

theorem enter_cases (entered : d.enter token p = .ok e) : ∃ row, d.rows.lookup p.name = some row ∧
    ((row.lookup token = none ∧
      e = { d with rows := setRow d.rows p.name (row ++ [(token, p)]) }) ∨
    ∃ held found, row.lookup token = some held ∧ e = { d with conflicts := found }) := by
  unfold enter at entered
  split at entered
  · cases entered
  · rename_i row found
    refine ⟨row, found, ?_⟩
    split at entered
    · rename_i free
      cases entered
      exact Or.inl ⟨free, rfl⟩
    · rename_i held inside
      split at entered
      all_goals
        cases entered
        exact Or.inr ⟨held, _, inside, rfl⟩

theorem keeps_enter (entered : d.enter token p = .ok e) : d.Keeps e := by
  obtain ⟨row, found, ⟨_, rfl⟩ | ⟨_, _, _, rfl⟩⟩ := enter_cases entered
  · refine ⟨rfl, rfl, fun {s old} found' => ?_⟩
    by_cases same : s = p.name
    · subst same
      rw [found] at found'
      cases found'
      refine ⟨row ++ [(token, p)], by simp [lookup_setRow, found], fun x q inside => ?_⟩
      rw [List.lookup_append, inside, Option.some_or]
    · exact ⟨old, by simp [lookup_setRow, same, found'], fun _ _ => id⟩
  · exact ⟨rfl, rfl, (Keeps.refl d).row⟩

theorem keeps_call (d : Draft) (c : Call) : d.Keeps (d.call c) := by
  cases c with
  | enter token p =>
    rw [call]
    split
    · rename_i entered
      exact keeps_enter entered
    · exact Keeps.refl d
  | publish => exact Keeps.refl d

theorem keeps_calls (d : Draft) (cs : List Call) : d.Keeps (d.calls cs) := by
  induction cs generalizing d with
  | nil => exact Keeps.refl d
  | cons c rest ih => exact (keeps_call d c).trans (ih (d.call c))

theorem calls_append (d : Draft) (cs rest : List Call) :
    d.calls (cs ++ rest) = (d.calls cs).calls rest :=
  List.foldl_append

theorem filled_of_call (token : Symbol) (found : d.rows.lookup p.name = some row) : ∃ row' held,
    (d.call (.enter token p)).rows.lookup p.name = some row' ∧ row'.lookup token = some held := by
  rw [call]
  split
  · rename_i entered
    obtain ⟨old, found', ⟨free, rfl⟩ | ⟨held, _, inside, rfl⟩⟩ := enter_cases entered
    · exact ⟨old ++ [(token, p)], p, by simp [lookup_setRow, found'],
        by simp [List.lookup_append, free]⟩
    · exact ⟨old, held, found', inside⟩
  · rename_i failed
    unfold enter at failed
    rw [found] at failed
    dsimp only at failed
    split at failed
    · cases failed
    · split at failed <;> cases failed

theorem filled_of_calls (member : Call.enter token p ∈ cs)
    (found : d.rows.lookup p.name = some row) : ∃ row' held,
    (d.calls cs).rows.lookup p.name = some row' ∧ row'.lookup token = some held := by
  obtain ⟨front, back, rfl⟩ := List.append_of_mem member
  rw [calls_append]
  obtain ⟨before, found', _⟩ := (keeps_calls d front).row found
  obtain ⟨now, held, found'', inside⟩ := filled_of_call token found'
  obtain ⟨last, found''', kept⟩ := (keeps_calls _ back).row found''
  exact ⟨last, held, found''', kept token held inside⟩

theorem rows_call (taken : ∀ token p, c = .enter token p → ¬ d.Free p.name token) :
    (d.call c).rows = d.rows := by
  cases c with
  | enter token p =>
    rw [call]
    split
    · rename_i entered
      obtain ⟨row, found, ⟨free, _⟩ | ⟨_, _, _, rfl⟩⟩ := enter_cases entered
      · exact absurd ⟨row, found, free⟩ (taken token p rfl)
      · rfl
    · rfl
  | publish => rfl

theorem rows_calls (taken : ∀ token p, .enter token p ∈ cs → ¬ d.Free p.name token) :
    (d.calls cs).rows = d.rows := by
  induction cs generalizing d with
  | nil => rfl
  | cons c rest ih =>
    have here : (d.call c).rows = d.rows :=
      rows_call fun token p same => taken token p (same ▸ List.mem_cons_self)
    have later : ((d.call c).calls rest).rows = (d.call c).rows := by
      refine ih fun token p member => ?_
      rw [Free, here]
      exact taken token p (List.mem_cons_of_mem c member)
    exact later.trans here

theorem free_iff (t : Published) (d : Draft) :
    (t.read d).lookup s x = .ok none ↔ d.Free s x := by
  unfold Table.lookup Table.row Published.read Free
  cases d.rows.lookup s <;> simp [Except.map]

/-- A published table is what it was exactly if nothing was entered in a cell that was free. -/
theorem published_same_iff (g : Grammar) (before after : List Call) {t : Published}
    (published : ((ofGrammar g).calls before).publish = .ok t) :
    t.start = g.start ∧ t.terminals = g.terminals ∧
    (∀ s x p, (t.after g before).lookup s x = .ok (some p) →
      (t.after g (before ++ after)).lookup s x = .ok (some p)) ∧
    ((t.after g before).SameAnswers (t.after g (before ++ after)) ↔
      ∀ token p, .enter token p ∈ after → (t.after g before).lookup p.name token ≠ .ok none) := by
  have kept := keeps_calls ((ofGrammar g).calls before) after
  have made : t = ⟨g.start, g.terminals⟩ := by
    have fresh := keeps_calls (ofGrammar g) before
    unfold publish at published
    split at published
    · cases published
      rw [← fresh.start_eq, ← fresh.terminals_eq]
      rfl
    · cases published
  rw [Published.after, Published.after, calls_append]
  refine ⟨by rw [made], by rw [made], ?_, ?_⟩
  · intro s x p inside
    obtain ⟨row, found, cell⟩ := Table.lookup_eq_some_iff.mp inside
    obtain ⟨row', found', cells⟩ := kept.row found
    exact Table.lookup_eq_some_iff.mpr ⟨row', found', cells x p cell⟩
  · constructor
    · intro same token p member free
      obtain ⟨row, found, none⟩ := (free_iff t _).mp free
      obtain ⟨row', held, found', inside⟩ := filled_of_calls member found
      have now := Table.lookup_eq_some_iff (t := t.read _).mpr ⟨row', found', inside⟩
      rw [← same.lookup_eq, free] at now
      cases now
    · intro taken
      have rows := rows_calls fun token p member free =>
        taken token p member ((free_iff t _).mpr free)
      have unchanged : t.read (((ofGrammar g).calls before).calls after) =
          t.read ((ofGrammar g).calls before) := by
        rw [Published.read, Published.read, rows]
      rw [unchanged]
      exact ⟨fun _ _ => rfl, fun _ => rfl, rfl, fun _ => rfl⟩

end Draft

namespace Sample

open Draft

def rootEntry : Call := .enter "a" ⟨"S", ["a", "A", "B", "b"], 0⟩

def nestedEntry : Call := .enter "a" ⟨"A", ["a", "A", "c"], 1⟩

def textbookPublished : Published := ⟨"S", textbook.terminalSet⟩

theorem textbook_publish :
    ((ofGrammar textbookGrammar).calls [rootEntry]).publish = .ok textbookPublished := by
  decide +kernel

theorem textbook_published_same_iff :
    ((ofGrammar textbookGrammar).calls [rootEntry]).publish = .ok textbookPublished ∧
    (textbookPublished.after textbookGrammar [rootEntry]).SameAnswers
      (textbookPublished.after textbookGrammar
        ([rootEntry] ++ [rootEntry, .publish, .enter "a" ⟨"S", ["b"], 5⟩])) := by
  refine ⟨textbook_publish, ?_⟩
  have spec := published_same_iff textbookGrammar [rootEntry]
    [rootEntry, .publish, .enter "a" ⟨"S", ["b"], 5⟩] textbook_publish
  refine spec.2.2.2.mpr fun token p member => ?_
  simp only [rootEntry, List.mem_cons, List.not_mem_nil, Call.enter.injEq, or_false, false_or,
    reduceCtorEq] at member
  rcases member with ⟨rfl, rfl⟩ | ⟨rfl, rfl⟩ <;> decide +kernel

/-- A production that is entered in a free cell shows in the table that was published before. -/
theorem textbook_published_changes :
    let t := textbookPublished.after textbookGrammar [rootEntry]
    let u := textbookPublished.after textbookGrammar ([rootEntry] ++ [nestedEntry])
    ((ofGrammar textbookGrammar).calls [rootEntry]).publish = .ok textbookPublished ∧
      ¬ t.SameAnswers u ∧ t.lookup "A" "a" ≠ u.lookup "A" "a" ∧
      t.expected "A" ≠ u.expected "A" ∧ t.format ≠ u.format ∧
      t.parse ["a", "a"] = .rejected ⟨.noAlternative "A", 1, "a", ["b", "B", "A"], []⟩ ∧
      u.parse ["a", "a"] =
        .rejected ⟨.noAlternative "A", 2, "$", ["b", "B", "c", "A"], ["a"]⟩ := by
  intro t u
  have lookup : t.lookup "A" "a" ≠ u.lookup "A" "a" := by decide +kernel
  refine ⟨textbook_publish, fun same => lookup (same.lookup_eq "A" "a"), lookup, ?_, ?_, ?_, ?_⟩
  · decide +kernel
  · decide +kernel
  · exact Outcome.eq_rejected (by decide +kernel)
  · exact Outcome.eq_rejected (by decide +kernel)

end Sample

end TopDown
