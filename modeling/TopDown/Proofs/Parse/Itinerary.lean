import TopDown.Proofs.Parse.Nodes

namespace TopDown.Sketch

/-- Every node but the first one is a child of an earlier node, at its slot and nowhere else. -/
structure Placed (nodes : Array SketchNode) : Prop where
  root : ∃ n, nodes[0]? = some n ∧ n.parent = none
  parent : ∀ (i : Nat) (n : SketchNode), nodes[i]? = some n → i ≠ 0 → ∃ m p,
    n.parent = some m ∧ m < i ∧ nodes[m]? = some p ∧ p.children[n.slot]? = some i
  child : ∀ (m : Nat) (p : SketchNode) (k c : Nat), nodes[m]? = some p →
    p.children[k]? = some c → ∃ n, nodes[c]? = some n ∧ n.parent = some m ∧ n.slot = k

/-- The nodes that follow each other from one node on, until the root is next. -/
inductive Itinerary (nodes : Array SketchNode) : Nat → List Nat → Prop
  | last {i} (ends : next nodes i = some 0) : Itinerary nodes i [i]
  | more {i j rest} (goes : next nodes i = some j) (inner : j ≠ 0)
    (later : Itinerary nodes j rest) : Itinerary nodes i (i :: rest)

/-- The nodes without children under the nodes with these numbers, from left to right. -/
inductive Frontier (nodes : Array SketchNode) : List Nat → List Nat → Prop
  | nil : Frontier nodes [] []
  | leaf {i n numbers leaves} (found : nodes[i]? = some n) (bare : n.children = [])
    (rest : Frontier nodes numbers leaves) : Frontier nodes (i :: numbers) (i :: leaves)
  | inner {i n numbers below leaves} (found : nodes[i]? = some n) (branched : n.children ≠ [])
    (under : Frontier nodes n.children below) (rest : Frontier nodes numbers leaves) :
    Frontier nodes (i :: numbers) (below ++ leaves)

variable {nodes nodes' : Array SketchNode} {i j m c bound : Nat} {n p : SketchNode}
  {numbers leaves rest : List Nat}

section Next

theorem Placed.parent_lt (placed : Placed nodes) (found : nodes[i]? = some n)
    (parent : n.parent = some m) : m < i := by
  by_cases first : i = 0
  · subst first
    obtain ⟨root, held, top⟩ := placed.root
    rw [found] at held
    cases held
    rw [top] at parent
    cases parent
  · obtain ⟨m', _, known, lower, _⟩ := placed.parent i n found first
    rw [parent] at known
    cases known
    exact lower

theorem Placed.climb_eq (placed : Placed nodes) (below : i < bound) :
    climb nodes bound i = next nodes i := by
  induction i using Nat.strongRecOn generalizing bound with
  | ind i ih =>
    obtain ⟨bound, rfl⟩ : ∃ less, bound = less + 1 := ⟨bound - 1, by omega⟩
    rw [next, climb, climb]
    cases found : nodes[i]? with
    | none => rfl
    | some n =>
      cases parent : n.parent with
      | none => simp only [parent]
      | some m =>
        have lower := placed.parent_lt found parent
        simp only [parent, ih m lower (Nat.lt_of_lt_of_le lower (Nat.le_of_lt_succ below)),
          ih m lower lower]

theorem Placed.next_root (placed : Placed nodes) : next nodes 0 = some 0 := by
  obtain ⟨n, found, top⟩ := placed.root
  simp [next, climb, found, top]

theorem next_sibling (found : nodes[i]? = some n) (parent : n.parent = some m)
    (above : nodes[m]? = some p) (sibling : p.children[n.slot + 1]? = some j) :
    next nodes i = some j := by
  simp [next, climb, found, parent, above, sibling]

theorem Placed.next_above (placed : Placed nodes) (found : nodes[i]? = some n)
    (parent : n.parent = some m) (above : nodes[m]? = some p)
    (last : p.children[n.slot + 1]? = none) : next nodes i = next nodes m := by
  rw [← placed.climb_eq (placed.parent_lt found parent)]
  simp [next, climb, found, parent, above, last]

end Next

theorem Itinerary.congr (itinerary : Itinerary nodes i numbers)
    (same : ∀ j ∈ numbers, next nodes' j = next nodes j) : Itinerary nodes' i numbers := by
  induction itinerary with
  | last ends => exact .last ((same _ (by simp)).trans ends)
  | more goes inner _ ih =>
    exact .more ((same _ (by simp)).trans goes) inner (ih fun j member => same j (by simp [member]))

theorem Frontier.bare (frontier : Frontier nodes numbers leaves) :
    ∀ i ∈ leaves, ∃ n, nodes[i]? = some n ∧ n.children = [] := by
  induction frontier with
  | nil => simp
  | leaf found bare _ ih => exact List.forall_mem_cons.mpr ⟨⟨_, found, bare⟩, ih⟩
  | inner _ _ _ _ under rest => exact List.forall_mem_append.mpr ⟨under, rest⟩

theorem Frontier.of_bare (bare : ∀ i ∈ numbers, ∃ n, nodes[i]? = some n ∧ n.children = []) :
    Frontier nodes numbers numbers := by
  induction numbers with
  | nil => exact .nil
  | cons i rest ih =>
    obtain ⟨⟨n, found, childless⟩, bare⟩ := List.forall_mem_cons.mp bare
    exact .leaf found childless (ih bare)

theorem Frontier.of_mem (frontier : Frontier nodes numbers leaves) (member : i ∈ numbers) :
    ∃ below, Frontier nodes [i] below ∧ below ⊆ leaves := by
  induction frontier with
  | nil => cases member
  | @leaf i n numbers leaves found bare _ ih =>
    rcases List.mem_cons.mp member with rfl | member
    · exact ⟨[_], .leaf found bare .nil, by simp⟩
    · obtain ⟨below, here, sub⟩ := ih member
      exact ⟨below, here, List.Subset.trans sub (List.subset_cons_self _ _)⟩
  | @inner i n numbers below leaves found branched under _ _ ih =>
    rcases List.mem_cons.mp member with rfl | member
    · exact ⟨below ++ [], .inner found branched under .nil, by simp⟩
    · obtain ⟨below', here, sub⟩ := ih member
      exact ⟨below', here, List.Subset.trans sub (List.subset_append_right _ _)⟩

theorem Placed.exists_frontier (placed : Placed nodes) (frontier : Frontier nodes [0] leaves)
    (found : nodes[i]? = some n) : ∃ below, Frontier nodes [i] below ∧ below ⊆ leaves := by
  induction i using Nat.strongRecOn generalizing n with
  | ind i ih =>
    by_cases first : i = 0
    · exact ⟨leaves, first ▸ frontier, List.Subset.refl _⟩
    · obtain ⟨m, p, _, lower, above, slot⟩ := placed.parent i n found first
      obtain ⟨below, here, sub⟩ := ih m lower above
      have inside : i ∈ p.children := List.mem_of_getElem? slot
      cases here with
      | leaf held bare =>
        rw [above] at held
        cases held
        simp [bare] at inside
      | inner held _ under rest =>
        rw [above] at held
        cases held
        cases rest
        obtain ⟨below', here', sub'⟩ := under.of_mem inside
        rw [List.append_nil] at sub
        exact ⟨below', here', List.Subset.trans sub' sub⟩

theorem Placed.mem_frontier_iff (placed : Placed nodes) (frontier : Frontier nodes [0] leaves) :
    i ∈ leaves ↔ ∃ n, nodes[i]? = some n ∧ n.children = [] := by
  constructor
  · exact frontier.bare i
  · rintro ⟨n, found, bare⟩
    obtain ⟨below, here, sub⟩ := placed.exists_frontier frontier found
    cases here with
    | leaf _ _ rest =>
      cases rest
      exact sub (by simp)
    | inner held branched =>
      rw [found] at held
      cases held
      exact absurd bare branched

section Complete

variable {span : Nat × Nat}

theorem climb_modify_span (c : Nat) (span : Nat × Nat) :
    climb (nodes.modify c fun n => { n with span := span }) bound i = climb nodes bound i := by
  induction bound generalizing i with
  | zero => rfl
  | succ bound ih =>
    simp only [climb, getElem?_modify_span, ih]
    cases nodes[i]? with
    | none => rfl
    | some n =>
      cases parent : n.parent with
      | none => simp only [Option.map_some, parent]
      | some m =>
        cases above : nodes[m]? with
        | none => simp only [Option.map_some, Option.map_none, parent, above]
        | some p => simp only [Option.map_some, parent, above]

theorem Placed.modify_span (placed : Placed nodes) (c : Nat) (span : Nat × Nat) :
    Placed (nodes.modify c fun n => { n with span := span }) := by
  constructor
  case root =>
    obtain ⟨n, found, top⟩ := placed.root
    exact ⟨_, modify_span_get c span found, top⟩
  case parent =>
    intro i n found inner
    obtain ⟨old, held, rfl⟩ := modify_span_cases found
    obtain ⟨m, p, above, lower, there, place⟩ := placed.parent i old held inner
    exact ⟨m, _, above, lower, modify_span_get c span there, place⟩
  case child =>
    intro m p k j found place
    obtain ⟨old, held, rfl⟩ := modify_span_cases found
    obtain ⟨n, there, parent, slot⟩ := placed.child m old k j held place
    exact ⟨_, modify_span_get c span there, parent, slot⟩

theorem Frontier.modify_span (frontier : Frontier nodes numbers leaves) (c : Nat)
    (span : Nat × Nat) :
    Frontier (nodes.modify c fun n => { n with span := span }) numbers leaves := by
  induction frontier with
  | nil => exact .nil
  | leaf found bare _ ih => exact .leaf (modify_span_get c span found) bare ih
  | inner found branched _ _ under rest =>
    exact .inner (modify_span_get c span found) branched under rest

end Complete

section Extend

variable {s : Sketch} {symbols : List Symbol}
variable (at_cursor : s.nodes[s.cursor]? = some n) (bare : n.children = [])

include at_cursor bare

theorem extend_get_branched (symbols : List Symbol) (found : s.nodes[i]? = some p)
    (branched : p.children ≠ []) : (s.extend symbols).nodes[i]? = some p := by
  refine extend_get_other symbols found fun here => branched ?_
  rw [here, at_cursor] at found
  cases found
  exact bare

theorem Placed.extend (placed : Placed s.nodes) (symbols : List Symbol) :
    Placed (s.extend symbols).nodes := by
  obtain ⟨inside, _⟩ := Array.getElem?_eq_some_iff.mp at_cursor
  constructor
  case root =>
    obtain ⟨root, found, top⟩ := placed.root
    obtain ⟨root', found', parent, _⟩ := extend_place symbols found
    exact ⟨root', found', parent.trans top⟩
  case parent =>
    intro i m found inner
    rcases extend_cases found with ⟨_, old, held, rfl⟩ | ⟨k, rfl, bound, rfl⟩
    · obtain ⟨above, q, parent, lower, there, place⟩ := placed.parent i old held inner
      have branched : q.children ≠ [] := List.ne_nil_of_mem (List.mem_of_getElem? place)
      refine ⟨above, q, ?_, lower, extend_get_branched at_cursor bare symbols there branched, ?_⟩
      · split <;> exact parent
      · split <;> exact place
    · exact ⟨s.cursor, _, rfl, by omega, extend_get_cursor symbols at_cursor,
        by simp [bound]⟩
  case child =>
    intro m p k c found place
    rcases extend_cases found with ⟨_, old, held, rfl⟩ | ⟨k', rfl, _, rfl⟩
    · by_cases here : s.cursor = m
      · subst here
        simp only [if_true] at place
        obtain ⟨bound, rfl⟩ := List.getElem?_eq_some_iff.mp place
        rw [List.length_range'] at bound
        exact ⟨_, by simpa using extend_get_new s bound, rfl, rfl⟩
      · simp only [here, if_false] at place
        obtain ⟨child, there, parent, slot⟩ := placed.child m old k c held place
        obtain ⟨child', there', parent', slot', _⟩ := extend_place symbols there
        exact ⟨child', there', parent'.trans parent, slot'.trans slot⟩
    · simp at place

/-- What comes after an old node stays the same, since no climb from it goes through the cursor. -/
theorem Placed.next_extend (placed : Placed s.nodes) (symbols : List Symbol)
    (old : i < s.nodes.size) : next (s.extend symbols).nodes i = next s.nodes i := by
  have placed' := placed.extend at_cursor bare symbols
  induction i using Nat.strongRecOn with
  | ind i ih =>
    by_cases first : i = 0
    · rw [first, placed.next_root, placed'.next_root]
    · have found : s.nodes[i]? = some s.nodes[i] := Array.getElem?_eq_getElem old
      obtain ⟨m, p, parent, lower, above, place⟩ := placed.parent i _ found first
      have branched : p.children ≠ [] := List.ne_nil_of_mem (List.mem_of_getElem? place)
      have above' := extend_get_branched at_cursor bare symbols above branched
      obtain ⟨n', found', parent', slot, _⟩ := extend_place symbols found
      rw [← slot] at place
      cases right : p.children[n'.slot + 1]? with
      | some j =>
        rw [next_sibling found' (parent'.trans parent) above' right,
          next_sibling found parent above (slot ▸ right)]
      | none =>
        rw [placed'.next_above found' (parent'.trans parent) above' right,
          placed.next_above found parent above (slot ▸ right), ih m lower (by omega)]

theorem Placed.next_new (placed : Placed s.nodes) {k : Nat} (bound : k < symbols.length) :
    next (s.extend symbols).nodes (s.nodes.size + k) =
      if k + 1 < symbols.length then some (s.nodes.size + (k + 1)) else next s.nodes s.cursor := by
  obtain ⟨inside, _⟩ := Array.getElem?_eq_some_iff.mp at_cursor
  have placed' := placed.extend at_cursor bare symbols
  have found := extend_get_new s bound
  have above := extend_get_cursor symbols at_cursor
  by_cases more : k + 1 < symbols.length
  · rw [if_pos more]
    exact next_sibling found rfl above (by simp [more])
  · rw [if_neg more, placed'.next_above found rfl above (by simp [more]),
      placed.next_extend at_cursor bare symbols inside]

theorem Itinerary.extend (itinerary : Itinerary s.nodes s.cursor (s.cursor :: rest))
    (placed : Placed s.nodes) (old : ∀ j ∈ rest, j < s.nodes.size) (nonempty : symbols ≠ []) :
    Itinerary (s.extend symbols).nodes s.nodes.size
      (List.range' s.nodes.size symbols.length ++ rest) := by
  have same : ∀ j ∈ rest, next (s.extend symbols).nodes j = next s.nodes j :=
    fun j member => placed.next_extend at_cursor bare symbols (old j member)
  have new : ∀ count k, k + count + 1 = symbols.length → Itinerary (s.extend symbols).nodes
      (s.nodes.size + k) (List.range' (s.nodes.size + k) (count + 1) ++ rest) := by
    intro count
    -- From the last new node back to the first; the count is of those that come later.
    induction count with
    | zero =>
      intro k whole
      have bound : k < symbols.length := by omega
      have goes := placed.next_new at_cursor bare bound
      rw [if_neg (by omega)] at goes
      cases itinerary with
      | last ends => exact .last (goes.trans ends)
      | more onward inner later => exact .more (goes.trans onward) inner (later.congr same)
    | succ count ih =>
      intro k whole
      have bound : k < symbols.length := by omega
      have goes := placed.next_new at_cursor bare bound
      rw [if_pos (by omega)] at goes
      exact .more goes (by omega) (ih (k + 1) (by omega))
  obtain ⟨count, length⟩ := Nat.exists_eq_add_one.mpr (List.length_pos_iff.mpr nonempty)
  have all := new count 0 (by omega)
  rwa [Nat.add_zero, ← length] at all

theorem Frontier.extend (frontier : Frontier s.nodes numbers leaves) (nonempty : symbols ≠ []) :
    Frontier (s.extend symbols).nodes numbers (leaves.flatMap fun i =>
      if i = s.cursor then List.range' s.nodes.size symbols.length else [i]) := by
  induction frontier with
  | nil => exact .nil
  | @leaf i m numbers leaves found childless _ ih =>
    rw [List.flatMap_cons]
    by_cases here : i = s.cursor
    · subst here
      have fresh : ∀ i ∈ List.range' s.nodes.size symbols.length,
          ∃ m, (s.extend symbols).nodes[i]? = some m ∧ m.children = [] := by
        intro i member
        obtain ⟨k, bound, rfl⟩ := List.mem_range'.mp member
        exact ⟨_, by simpa using extend_get_new s bound, rfl⟩
      rw [if_pos rfl]
      refine .inner (extend_get_cursor symbols at_cursor) ?_ (.of_bare fresh) ih
      simpa using nonempty
    · rw [if_neg here]
      exact .leaf (extend_get_other symbols found here) childless ih
  | inner found branched _ _ under rest =>
    rw [List.flatMap_append]
    exact .inner (extend_get_branched at_cursor bare symbols found branched) branched under rest

end Extend

end TopDown.Sketch
