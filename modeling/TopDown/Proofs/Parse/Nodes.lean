import TopDown.Parse.Sketch

namespace TopDown.Sketch

variable {nodes : Array SketchNode} {s s' : Sketch} {i c : Nat} {n : SketchNode}

theorem ofRoot_get (value : Symbol) :
    (ofRoot value).nodes[0]? = some ⟨value, none, 0, [], (0, 0)⟩ := rfl

theorem ofRoot_cases {value : Symbol} (found : (ofRoot value).nodes[i]? = some n) :
    i = 0 ∧ n = ⟨value, none, 0, [], (0, 0)⟩ := by
  obtain ⟨bound, _⟩ := Array.getElem?_eq_some_iff.mp found
  have first : i = 0 := by simpa [ofRoot] using bound
  rw [first, ofRoot_get] at found
  exact ⟨first, (Option.some.inj found).symm⟩

section Complete

variable {span : Nat × Nat}

theorem getElem?_modify_span (nodes : Array SketchNode) (c i : Nat) (span : Nat × Nat) :
    (nodes.modify c fun n => { n with span := span })[i]? =
      (nodes[i]?).map fun n => { n with span := if c = i then span else n.span } := by
  rw [Array.getElem?_modify]
  by_cases same : c = i
  · simp [same]
  · simp [same]

theorem modify_span_get (c : Nat) (span : Nat × Nat) (found : nodes[i]? = some n) :
    (nodes.modify c fun n => { n with span := span })[i]? =
      some { n with span := if c = i then span else n.span } := by
  rw [getElem?_modify_span, found, Option.map_some]

theorem modify_span_cases (found : (nodes.modify c fun n => { n with span := span })[i]? = some n) :
    ∃ old, nodes[i]? = some old ∧ n = { old with span := if c = i then span else old.span } := by
  rw [getElem?_modify_span] at found
  obtain ⟨old, held, same⟩ := Option.map_eq_some_iff.mp found
  exact ⟨old, held, same.symm⟩

theorem complete_get (completed : s.complete span = some s') (found : s.nodes[i]? = some n) :
    s'.nodes[i]? = some { n with span := if s.cursor = i then span else n.span } := by
  obtain ⟨_, _, rfl⟩ := Option.map_eq_some_iff.mp completed
  exact modify_span_get s.cursor span found

end Complete

section Extend

variable {symbols : List Symbol}

theorem newNodes_get (parent : Nat) {k : Nat} (bound : k < symbols.length) :
    (newNodes parent symbols)[k]? = some ⟨symbols[k], some parent, k, [], (0, 0)⟩ := by
  simp [newNodes, bound]

theorem extend_size (s : Sketch) (symbols : List Symbol) :
    (s.extend symbols).nodes.size = s.nodes.size + symbols.length := by
  simp [extend, newNodes]

theorem extend_get_old (bound : i < s.nodes.size) :
    (s.extend symbols).nodes[i]? = (s.nodes[i]?).map fun n =>
      if s.cursor = i then { n with children := List.range' s.nodes.size symbols.length } else n := by
  simp only [extend]
  rw [Array.getElem?_append_left (by simpa using bound), Array.getElem?_modify]
  by_cases same : s.cursor = i
  · simp [same]
  · simp [same]

theorem extend_get_new (s : Sketch) {k : Nat} (bound : k < symbols.length) :
    (s.extend symbols).nodes[s.nodes.size + k]? =
      some ⟨symbols[k], some s.cursor, k, [], (0, 0)⟩ := by
  simp only [extend]
  rw [Array.getElem?_append_right (by simp)]
  simpa using newNodes_get s.cursor bound

theorem extend_cases (found : (s.extend symbols).nodes[i]? = some n) :
    (i < s.nodes.size ∧ ∃ old, s.nodes[i]? = some old ∧ n = if s.cursor = i then
        { old with children := List.range' s.nodes.size symbols.length } else old) ∨
      ∃ k, i = s.nodes.size + k ∧ ∃ bound : k < symbols.length,
        n = ⟨symbols[k], some s.cursor, k, [], (0, 0)⟩ := by
  by_cases old : i < s.nodes.size
  · rw [extend_get_old old] at found
    obtain ⟨m, held, rfl⟩ := Option.map_eq_some_iff.mp found
    exact Or.inl ⟨old, m, held, rfl⟩
  · obtain ⟨bound, _⟩ := Array.getElem?_eq_some_iff.mp found
    rw [extend_size] at bound
    obtain ⟨k, rfl⟩ : ∃ k, i = s.nodes.size + k := ⟨i - s.nodes.size, by omega⟩
    have inside : k < symbols.length := by omega
    rw [extend_get_new s inside] at found
    exact Or.inr ⟨k, rfl, inside, (Option.some.inj found).symm⟩

theorem extend_get_other (symbols : List Symbol) (found : s.nodes[i]? = some n)
    (other : i ≠ s.cursor) : (s.extend symbols).nodes[i]? = some n := by
  obtain ⟨old, _⟩ := Array.getElem?_eq_some_iff.mp found
  simp [extend_get_old old, found, Ne.symm other]

theorem extend_get_cursor (symbols : List Symbol) (found : s.nodes[s.cursor]? = some n) :
    (s.extend symbols).nodes[s.cursor]? =
      some { n with children := List.range' s.nodes.size symbols.length } := by
  obtain ⟨old, _⟩ := Array.getElem?_eq_some_iff.mp found
  simp [extend_get_old old, found]

theorem extend_place (symbols : List Symbol) (found : s.nodes[i]? = some n) :
    ∃ n', (s.extend symbols).nodes[i]? = some n' ∧ n'.parent = n.parent ∧ n'.slot = n.slot ∧
      n'.span = n.span := by
  by_cases here : i = s.cursor
  · subst here
    exact ⟨_, extend_get_cursor symbols found, rfl, rfl, rfl⟩
  · exact ⟨n, extend_get_other symbols found here, rfl, rfl, rfl⟩

end Extend

end TopDown.Sketch
