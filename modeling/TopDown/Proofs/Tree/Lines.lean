import TopDown.Proofs.Text.Fields
import TopDown.Proofs.Text.Reading
import TopDown.Proofs.Tree.Equality
import TopDown.Proofs.Tree.Walk

namespace TopDown.Tree

open Text

structure Entry where
  depth : Nat
  value : Symbol
  start : Int
  stop : Int

/-- A symbol that is on one line and does not begin with a blank. It may be empty. -/
structure Unspaced (s : Symbol) : Prop where
  no_break : '\n' ∉ s.toList
  no_blank : s.toList.head? ≠ some ' '

instance (s : Symbol) : Decidable (Unspaced s) :=
  decidable_of_iff ('\n' ∉ s.toList ∧ s.toList.head? ≠ some ' ')
    ⟨fun ⟨line, blank⟩ => ⟨line, blank⟩, fun unspaced => ⟨unspaced.no_break, unspaced.no_blank⟩⟩

inductive Tidy : Tree → Prop
  | node {value start stop children} (symbol : Unspaced value) (below : ∀ c ∈ children, Tidy c) :
    Tidy (node value start stop children)

variable {e f : Entry} {es fs r s : List Entry} {depth : Nat}

section OneLine

def Entry.spanText (e : Entry) : String := toString e.start ++ ", " ++ toString e.stop ++ ")"

def Entry.line (e : Entry) : String := blanks (2 * e.depth) ++ (e.value ++ " [" ++ e.spanText)

theorem mem_toList_spanText {c : Char} (member : c ∈ e.spanText.toList) :
    c.isDigit = true ∨ c ∈ ['-', ',', ' ', ')'] := by
  simp only [Entry.spanText, String.toList_append, List.mem_append] at member
  rcases member with ((start | comma) | stop) | close
  · exact (mem_toList_number start).imp id fun minus => by simp [minus]
  · have marks : c = ',' ∨ c = ' ' := by simpa using comma
    rcases marks with rfl | rfl <;> simp
  · exact (mem_toList_number stop).imp id fun minus => by simp [minus]
  · have mark : c = ')' := by simpa using close
    simp [mark]

theorem eq_of_spanText (same : e.spanText = f.spanText) : e.start = f.start ∧ e.stop = f.stop := by
  have ends : ∀ r, EndsNumber (", ".toList ++ r) := fun _ => endsNumber_cons rfl _
  have ends' : EndsNumber ")".toList := endsNumber_cons rfl _
  have chars := congrArg String.toList same
  simp only [Entry.spanText, String.toList_append, List.append_assoc] at chars
  obtain ⟨start, afterStart⟩ := eq_of_number (ends _) (ends _) chars
  obtain ⟨stop, _⟩ := eq_of_number ends' ends' (List.append_cancel_left afterStart)
  exact ⟨start, stop⟩

/-- The last bracket begins the span, whatever the symbol is, and the blanks in front end where the
symbol begins, or with the one before the bracket. -/
theorem Entry.eq_of_line (plain : Unspaced e.value) (plain' : Unspaced f.value)
    (same : e.line = f.line) : e = f := by
  have free : ∀ g : Entry, '[' ∉ g.spanText.toList :=
    fun g member => absurd (mem_toList_spanText member) (by decide)
  have chars : ∀ g : Entry, g.line.toList =
      (List.replicate (2 * g.depth) ' ' ++ g.value.toList ++ [' ']) ++ '[' :: g.spanText.toList := by
    intro g
    simp [Entry.line, blanks]
  have lists := congrArg String.toList same
  rw [chars, chars] at lists
  obtain ⟨front, span⟩ := eq_of_append_mark (free e) (free f) lists
  obtain ⟨width, symbol⟩ :=
    replicate_append_inj plain.no_blank plain'.no_blank (List.append_cancel_right front)
  obtain ⟨start, stop⟩ := eq_of_spanText (String.toList_inj.mp span)
  obtain ⟨depth, value, _, _⟩ := e
  obtain ⟨depth', value', _, _⟩ := f
  dsimp only at width symbol start stop
  obtain rfl : depth = depth' := by omega
  obtain rfl := String.toList_inj.mp symbol
  rw [start, stop]

theorem Entry.no_break (plain : Unspaced e.value) : '\n' ∉ e.line.toList := by
  intro member
  simp only [Entry.line, blanks, String.toList_append, String.toList_ofList, List.mem_append]
    at member
  rcases member with blank | (symbol | mark) | span
  · exact absurd (List.eq_of_mem_replicate blank) (by decide)
  · exact plain.no_break symbol
  · exact absurd mark (by decide)
  · exact absurd (mem_toList_spanText span) (by decide)

theorem eq_of_map_line (plain : ∀ e ∈ es, Unspaced e.value) (plain' : ∀ f ∈ fs, Unspaced f.value)
    (same : es.map Entry.line = fs.map Entry.line) : es = fs := by
  induction es generalizing fs with
  | nil => exact (List.map_eq_nil_iff.mp same.symm).symm
  | cons e es ih =>
    obtain ⟨f, fs, rfl, line, lines⟩ := List.map_eq_cons_iff.mp same.symm
    obtain ⟨here, later⟩ := List.forall_mem_cons.mp plain
    obtain ⟨here', later'⟩ := List.forall_mem_cons.mp plain'
    rw [Entry.eq_of_line here here' line.symm, ih later later' lines.symm]

end OneLine

section Outline

def entry (n : Tree × Nat) : Entry := ⟨n.2, n.1.value, n.1.start, n.1.stop⟩

theorem lines_eq_map_line (t : Tree) : t.lines = ((preorder 0 t).map entry).map Entry.line := by
  rw [lines, nodes_eq_preorder, List.map_map]
  refine List.map_congr_left fun n _ => ?_
  simp [entry, Entry.line, Entry.spanText, Tree.spanText, String.append_assoc]

def Shallow (depth : Nat) (es : List Entry) : Prop := ∀ e ∈ es.head?, e.depth < depth

theorem Shallow.siblings (shallow : Shallow depth r) (ts : List Tree) :
    Shallow (depth + 1) ((preorderEach depth ts).map entry ++ r) := by
  intro e first
  cases ts with
  | nil => exact Nat.lt_succ_of_lt (shallow e first)
  | cons t rest =>
    obtain ⟨value, start, stop, children⟩ := t
    obtain rfl := Option.some.inj first
    exact Nat.lt_succ_self depth

theorem Shallow.ne_siblings (shallow : Shallow depth r) (t : Tree) (ts : List Tree) :
    r ≠ (preorderEach depth (t :: ts)).map entry ++ s := by
  rintro rfl
  obtain ⟨value, start, stop, children⟩ := t
  exact Nat.lt_irrefl depth (shallow ⟨depth, value, start, stop⟩ rfl)

mutual

theorem preorder_legible (depth : Nat) (t u : Tree) {r s : List Entry}
    (shallow : Shallow (depth + 1) r) (shallow' : Shallow (depth + 1) s)
    (same : (preorder depth t).map entry ++ r = (preorder depth u).map entry ++ s) :
    t = u ∧ r = s := by
  obtain ⟨value, start, stop, children⟩ := t
  obtain ⟨value', start', stop', children'⟩ := u
  obtain ⟨root, below⟩ := List.cons.inj same
  obtain ⟨_, rfl, rfl, rfl⟩ := Entry.mk.inj root
  obtain ⟨rfl, rest⟩ := preorderEach_legible (depth + 1) children children' shallow shallow' below
  exact ⟨rfl, rest⟩

theorem preorderEach_legible (depth : Nat) (ts us : List Tree) {r s : List Entry}
    (shallow : Shallow depth r) (shallow' : Shallow depth s)
    (same : (preorderEach depth ts).map entry ++ r = (preorderEach depth us).map entry ++ s) :
    ts = us ∧ r = s := by
  cases ts with
  | nil =>
    cases us with
    | nil => exact ⟨rfl, same⟩
    | cons u us => exact (shallow.ne_siblings u us same).elim
  | cons t ts =>
    cases us with
    | nil => exact (shallow'.ne_siblings t ts same.symm).elim
    | cons u us =>
      simp only [preorderEach, List.map_append, List.append_assoc] at same
      obtain ⟨rfl, afterFirst⟩ :=
        preorder_legible depth t u (shallow.siblings ts) (shallow'.siblings us) same
      obtain ⟨rfl, afterRest⟩ := preorderEach_legible depth ts us shallow shallow' afterFirst
      exact ⟨rfl, afterRest⟩

end

mutual

theorem Tidy.entries {t : Tree} (tidy : t.Tidy) (depth : Nat) :
    ∀ e ∈ (preorder depth t).map entry, Unspaced e.value := by
  obtain ⟨value, start, stop, children⟩ := t
  cases tidy with
  | node symbol below => exact List.forall_mem_cons.mpr ⟨symbol, entries_each below (depth + 1)⟩

theorem entries_each {ts : List Tree} (tidy : ∀ t ∈ ts, t.Tidy) (depth : Nat) :
    ∀ e ∈ (preorderEach depth ts).map entry, Unspaced e.value := by
  cases ts with
  | nil => simp [preorderEach]
  | cons t rest =>
    obtain ⟨here, later⟩ := List.forall_mem_cons.mp tidy
    rw [preorderEach, List.map_append, List.forall_mem_append]
    exact ⟨here.entries depth, entries_each later depth⟩

end

theorem Tidy.splitAt_format {t : Tree} (tidy : t.Tidy) : splitAt '\n' t.format = t.lines := by
  have filled : t.lines ≠ [] := by
    obtain ⟨value, start, stop, children⟩ := t
    simp [lines_eq_map_line, preorder]
  refine splitAt_intercalate rfl (fun line member => ?_) filled
  rw [lines_eq_map_line] at member
  obtain ⟨e, inside, rfl⟩ := List.mem_map.mp member
  exact Entry.no_break (tidy.entries 0 e inside)

/-- The printed tree can be read back if no symbol goes over a line or begins with a blank. -/
theorem format_eq_iff {t u : Tree} (tidy : t.Tidy) (tidy' : u.Tidy) :
    t.format = u.format ↔ (t == u) = true := by
  rw [beq_iff_eq]
  constructor
  · intro same
    have lines := congrArg (splitAt '\n') same
    rw [tidy.splitAt_format, tidy'.splitAt_format, lines_eq_map_line, lines_eq_map_line] at lines
    have entries := eq_of_map_line (tidy.entries 0) (tidy'.entries 0) lines
    have shallow : Shallow 1 [] := fun e first => absurd first (by simp)
    exact (preorder_legible 0 t u shallow shallow (congrArg (· ++ []) entries)).1
  · rintro rfl
    rfl

/-- Blanks in front of a symbol look like a greater depth. -/
example : (node "S" 0 0 [node "a" 0 0 [], node "  b" 0 0 []]).format =
    (node "S" 0 0 [node "a" 0 0 [node "b" 0 0 []]]).format := by
  decide +kernel

end Outline

theorem spanlike_format_eq_iff :
    (node "[0, 1)" 0 1 [node "" (-1) 0 [], node "a [2, 3)" 2 3 []]).Tidy ∧
    (node "[0, 1)" 0 1 [node "" (-1) 0 [node "a [2, 3)" 2 3 []]]).Tidy ∧
    ((node "[0, 1)" 0 1 [node "" (-1) 0 [], node "a [2, 3)" 2 3 []]).format =
        (node "[0, 1)" 0 1 [node "" (-1) 0 [node "a [2, 3)" 2 3 []]]).format ↔
      (node "[0, 1)" 0 1 [node "" (-1) 0 [], node "a [2, 3)" 2 3 []] ==
        node "[0, 1)" 0 1 [node "" (-1) 0 [node "a [2, 3)" 2 3 []]]) = true) := by
  have leaf : Tidy (node "a [2, 3)" 2 3 []) := .node (by decide) (by simp)
  have flat : Tidy (node "[0, 1)" 0 1 [node "" (-1) 0 [], node "a [2, 3)" 2 3 []]) :=
    .node (by decide) (List.forall_mem_cons.mpr
      ⟨.node (by decide) (by simp), List.forall_mem_singleton.mpr leaf⟩)
  have deep : Tidy (node "[0, 1)" 0 1 [node "" (-1) 0 [node "a [2, 3)" 2 3 []]]) :=
    .node (by decide) (List.forall_mem_singleton.mpr
      (.node (by decide) (List.forall_mem_singleton.mpr leaf)))
  exact ⟨flat, deep, format_eq_iff flat deep⟩

end TopDown.Tree
