import TopDown.Event
import TopDown.Proofs.Parse.Soundness
import TopDown.Proofs.Parse.Trace

namespace TopDown

/-- What a node shows of itself: its symbol, the symbols of its children, and where it starts. -/
structure Heading where
  symbol : Symbol
  below : List Symbol
  start : Int

namespace Tree

def heading (t : Tree) : Heading := ⟨t.value, t.children.map Tree.value, t.start⟩

mutual

def headings : Tree → List Heading
  | node value start stop children =>
    heading (node value start stop children) :: headingsEach children

def headingsEach : List Tree → List Heading
  | [] => []
  | t :: rest => headings t ++ headingsEach rest

end

theorem headingsEach_eq_flatMap (ts : List Tree) : headingsEach ts = ts.flatMap headings := by
  induction ts with
  | nil => rfl
  | cons t rest ih => rw [headingsEach, ih, List.flatMap_cons]

mutual

theorem map_heading_preorder (depth : Nat) (t : Tree) :
    (preorder depth t).map (fun n => n.1.heading) = t.headings := by
  obtain ⟨value, start, stop, children⟩ := t
  rw [preorder, headings, List.map_cons, map_heading_preorderEach (depth + 1) children]

theorem map_heading_preorderEach (depth : Nat) (ts : List Tree) :
    (preorderEach depth ts).map (fun n => n.1.heading) = headingsEach ts := by
  cases ts with
  | nil => rfl
  | cons t rest =>
    rw [preorderEach, headingsEach, List.map_append, map_heading_preorder depth t,
      map_heading_preorderEach depth rest]

end

theorem headings_inner (value : Symbol) (before : List Tree) (last : Tree) :
    (inner value before last).headings =
      ⟨value, before.map Tree.value ++ [last.value], (inner value before last).start⟩ ::
        (before.flatMap headings ++ last.headings) := by
  rw [inner, headings, headingsEach_eq_flatMap, List.flatMap_append]
  simp [heading, Tree.value, Tree.children, Tree.start]

end Tree

namespace Drawing

def startOf (done : List Tree) (place : Int) : Int := (done.head?.map Tree.start).getD place

theorem start_inner (value : Symbol) (done : List Tree) (t : Tree) :
    (Tree.inner value done t).start = startOf done t.start := by
  cases done with
  | nil => rfl
  | cons first rest => rfl

theorem startOf_concat (done : List Tree) (t : Tree) (place : Int) :
    startOf (done ++ [t]) place = startOf done t.start := by
  cases done with
  | nil => rfl
  | cons first rest => rfl

/-- The headings of the nodes around a child with a symbol, which starts at a place, and of what is
complete on its left. -/
def headingsAround : List Frame → Symbol → Int → List Heading
  | [], _, _ => []
  | ⟨value, done, due⟩ :: frames, s, place =>
    headingsAround frames value (startOf done place) ++
      ⟨value, done.map Tree.value ++ s :: due, startOf done place⟩ :: done.flatMap Tree.headings

def headings (place : Int) : Drawing → List Heading
  | growing s frames => headingsAround frames s place
  | complete t => t.headings

theorem headings_resume (frames : List Frame) (t : Tree) (place : Int) :
    (resume frames t).headings place = headingsAround frames t.value t.start ++ t.headings := by
  induction frames generalizing t with
  | nil => rfl
  | cons f frames ih =>
    obtain ⟨value, done, due⟩ := f
    cases due with
    -- The last child completes its node, which then has the heading that its frame had.
    | nil =>
      have symbol : (Tree.inner value done t).value = value := rfl
      rw [resume, ih, Tree.headings_inner, headingsAround, start_inner, symbol]
      simp
    | cons s due => simp [resume, headings, headingsAround, startOf_concat]

end Drawing

def Action.below : Action → List Symbol
  | skip => []
  | consume => []
  | expand p => p.symbols

variable {g : Grammar} {t : Table} {tokens : List Symbol}

theorem Scene.Moves.headings {c c' : Scene} {action : Action} (moves : c.Moves t action c') :
    ∃ top, c.drawing.stack.head? = some top ∧ c'.drawing.headings c'.position =
      c.drawing.headings c.position ++ [⟨top, action.below, c.position⟩] := by
  cases moves with
  | skip => exact ⟨_, rfl, Drawing.headings_resume ..⟩
  | consume => exact ⟨_, rfl, Drawing.headings_resume ..⟩
  | expand _ _ _ _ symbols =>
    refine ⟨_, rfl, ?_⟩
    rw [Action.below, symbols]
    rfl

/-- The record of what was done at a node, given the heading of the node. -/
structure ActionRecord.Reports (g : Grammar) (tokens : List Symbol) (r : ActionRecord)
    (h : Heading) : Prop where
  top : r.stack.head? = some h.symbol
  token : ∃ place : Nat, h.start = place ∧ place ≤ tokens.length ∧
    r.token = tokens[place]?.getD Symbol.endMark
  inner : h.below ≠ [] →
    ∃ p ∈ g.productions, p.name = h.symbol ∧ p.symbols = h.below ∧ r.action = .expand p
  leaf : h.below = [] → r.action = if h.symbol = Symbol.empty then .skip else .consume

theorem Scene.Reads.token_eq {c : Scene} (reads : c.Reads g tokens) :
    c.input.headD Symbol.endMark = tokens[c.position]?.getD Symbol.endMark := by
  rw [reads.input_eq, List.headD_eq_head?_getD, List.head?_append, List.head?_drop]
  cases tokens[c.position]? with
  | none => rfl
  | some token => rfl

theorem Scene.Moves.reports (of : t.IsOf g) {c c' : Scene} {action : Action}
    (reads : c.Reads g tokens) (moves : c.Moves t action c') :
    ∃ h, (c.record action).Reports g tokens h ∧
      c'.drawing.headings c'.position = c.drawing.headings c.position ++ [h] := by
  obtain ⟨top, first, added⟩ := moves.headings
  refine ⟨⟨top, action.below, c.position⟩,
    ⟨first, ⟨c.position, rfl, reads.bound, reads.token_eq⟩, ?_, ?_⟩, added⟩
  · intro inner
    cases moves with
    | skip => exact absurd rfl inner
    | consume => exact absurd rfl inner
    | expand _ _ found cell _ =>
      obtain rfl := Option.some.inj first
      obtain ⟨rule, rfl, _⟩ := of.cell found cell
      exact ⟨_, rule, rfl, rfl, rfl⟩
  · intro leaf
    cases moves with
    | skip =>
      obtain rfl := Option.some.inj first
      rfl
    | consume plain =>
      obtain rfl := Option.some.inj first
      exact (if_neg plain).symm
    | expand _ _ _ _ symbols => simp [Action.below, symbols] at leaf

theorem Scene.Traces.reports (of : t.IsOf g) (known : ∀ s ∈ tokens, s ∈ g.terminals)
    {c c' : Scene} {records : List ActionRecord} (reads : c.Reads g tokens) (fed : c.Fed)
    (traces : c.Traces t records c') :
    ∃ hs, List.Forall₂ (ActionRecord.Reports g tokens) records hs ∧
      c'.drawing.headings c'.position = c.drawing.headings c.position ++ hs := by
  induction traces with
  | stop => exact ⟨[], .nil, (List.append_nil _).symm⟩
  | move moves _ ih =>
    obtain ⟨h, report, added⟩ := moves.reports of reads
    obtain ⟨hs, reports, later⟩ := ih (reads.moves of known fed moves) (fed.moves of moves)
    exact ⟨h :: hs, .cons report reports, by rw [later, added, List.append_assoc]; rfl⟩

theorem Table.records_report (made : g.table = .ok t) {tree : Tree}
    (accepted : t.parse tokens = .accepted tree) :
    List.Forall₂ (ActionRecord.Reports g tokens) (t.run tokens).records tree.headings := by
  obtain ⟨_, _, _, of⟩ := Grammar.table_isOf made
  obtain ⟨known, _⟩ := spells_of_accepted made accepted
  have known' : ∀ s ∈ tokens, s ∈ t.terminals := by
    rw [of.terminals_eq]
    exact known
  obtain ⟨c, traces, ends⟩ := run_traces made known'
  obtain ⟨hs, reports, drawn⟩ :=
    traces.reports of known (Scene.initial_reads of tokens) (Scene.initial_fed of tokens)
  rw [accepted] at ends
  cases ends with
  | accepts =>
    have whole : tree.headings = hs := drawn
    rw [whole]
    exact reports

def Tree.actionText (t : Tree) : String :=
  if t.isLeaf then if t.value = Symbol.empty then "skip" else "match"
  else "expand " ++ (t.value ++ " -> " ++ " ".intercalate (t.children.map Tree.value))

def tokenAt (tokens : List Symbol) (place : Int) : Symbol :=
  tokens[place.toNat]?.getD Symbol.endMark

theorem ActionRecord.Reports.token_eq {r : ActionRecord} {h : Heading}
    (reports : r.Reports g tokens h) : r.token = tokenAt tokens h.start := by
  obtain ⟨place, start, _, token⟩ := reports.token
  rw [tokenAt, start, Int.toNat_natCast, token]

theorem ActionRecord.Reports.action_eq {r : ActionRecord} {u : Tree}
    (reports : r.Reports g tokens u.heading) : r.action.text = u.actionText := by
  obtain ⟨value, start, stop, children⟩ := u
  cases children with
  | nil =>
    rw [reports.leaf rfl, apply_ite Action.text]
    rfl
  | cons child rest =>
    obtain ⟨p, _, name, symbols, action⟩ := reports.inner (List.cons_ne_nil _ _)
    rw [action, Action.text, Production.text, name, symbols]
    rfl

/-- An event that logs a node: what was done there, and a line that shows the upper part of the
stack, the token at the start of the node, and the action. -/
structure Event.Logs (g : Grammar) (tokens : List Symbol) (e : Event) (u : Tree) : Prop where
  channel_eq : e.channel = "llparse.action"
  level_eq : e.level = .info
  acted : ∃ r, e = .acted r ∧ r.Reports g tokens u.heading
  line : ∃ shown, e.message = Text.padRight 30 shown ++ " " ++
    Text.padRight 15 (tokenAt tokens u.start) ++ " " ++ u.actionText

theorem ActionRecord.Reports.logs {r : ActionRecord} {u : Tree}
    (reports : r.Reports g tokens u.heading) : (Event.acted r).Logs g tokens u := by
  refine ⟨rfl, rfl, ⟨r, rfl, reports⟩, " ".intercalate (r.stack.take 5).reverse, ?_⟩
  have token : r.token = tokenAt tokens u.start := reports.token_eq
  have message : (Event.acted r).message = r.text := rfl
  rw [message, ActionRecord.text, token, reports.action_eq]

theorem Table.Run.select_events (run : Table.Run) :
    Event.select .info run.events = run.records.map .acted := by
  rw [Event.select, Table.Run.events, List.filter_eq_self]
  intro e member
  obtain ⟨r, _, rfl⟩ := List.mem_map.mp member
  rfl

/-- An accepted run logs each node of its tree once, in the order of the lines of the tree: parents
before children, and children from left to right. -/
theorem Table.events_preorder (made : g.table = .ok t) {tree : Tree}
    (accepted : t.parse tokens = .accepted tree) :
    tree.lines = (tree.preorder 0).map (fun n => Text.blanks (2 * n.2) ++ n.1.spanText) ∧
      List.Forall₂ (fun e n => Event.Logs g tokens e n.1)
        (Event.select .info (t.run tokens).events) (tree.preorder 0) := by
  constructor
  · rw [Tree.lines, Tree.nodes_eq_preorder]
  · have reports := records_report made accepted
    rw [← Tree.map_heading_preorder 0, List.forall₂_map_right_iff] at reports
    rw [Run.select_events, List.forall₂_map_left_iff]
    exact reports.imp fun _ _ => ActionRecord.Reports.logs

namespace Sample

theorem textbook_events_preorder :
    ∃ tree, textbookTable.parse ["a", "c", "b"] = .accepted tree ∧
      tree.lines = (tree.preorder 0).map (fun n => Text.blanks (2 * n.2) ++ n.1.spanText) ∧
        List.Forall₂ (fun e n => Event.Logs textbookGrammar ["a", "c", "b"] e n.1)
          (Event.select .info (textbookTable.run ["a", "c", "b"]).events) (tree.preorder 0) := by
  have accepted : (match textbookTable.parse ["a", "c", "b"] with
      | .accepted _ => true
      | _ => false) = true := by decide +kernel
  cases outcome : textbookTable.parse ["a", "c", "b"] with
  | accepted tree => exact ⟨tree, rfl, Table.events_preorder textbook_table outcome⟩
  | rejected error => simp [outcome] at accepted
  | broken fault => simp [outcome] at accepted

end Sample

end TopDown
