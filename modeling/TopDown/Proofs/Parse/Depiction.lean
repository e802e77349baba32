import TopDown.Proofs.Parse.Drawing
import TopDown.Proofs.Parse.Nodes

namespace TopDown.Sketch

def Linked (nodes : Array SketchNode) : Prop :=
  ∀ i n, nodes[i]? = some n → ∀ c ∈ n.children, i < c ∧ c < nodes.size

/-- Under the nodes with these numbers stand these trees, and no open node is among theirs. -/
inductive Shows (nodes : Array SketchNode) (opened : List Nat) : List Nat → List Tree → Prop
  | nil : Shows nodes opened [] []
  | cons {i n numbers children trees} (found : nodes[i]? = some n) (closed : i ∉ opened)
    (below : Shows nodes opened n.children children) (rest : Shows nodes opened numbers trees) :
    Shows nodes opened (i :: numbers) (treeOf n children :: trees)

/-- The nodes with these numbers are the children of a node from a place on. Nothing hangs under
them yet. -/
inductive Waits (nodes : Array SketchNode) (parent : Nat) : Nat → List Nat → List Symbol → Prop
  | nil {slot} : Waits nodes parent slot [] []
  | cons {slot i value span numbers symbols}
    (found : nodes[i]? = some ⟨value, some parent, slot, [], span⟩) (lower : parent < i)
    (rest : Waits nodes parent (slot + 1) numbers symbols) :
    Waits nodes parent slot (i :: numbers) (value :: symbols)

/-- Above a node hang frames. The other numbers are those of the nodes that wait in the frames. -/
inductive Path (nodes : Array SketchNode) (opened : List Nat) :
    Nat → List Frame → List Nat → Prop
  | root {n} (found : nodes[0]? = some n) (top : n.parent = none) : Path nodes opened 0 [] []
  | under {i m n p lefts rights done due frames numbers} (found : nodes[i]? = some n)
    (parent : n.parent = some m) (slot : n.slot = lefts.length) (above : nodes[m]? = some p)
    (children : p.children = lefts ++ i :: rights) (lower : m < i)
    (left : Shows nodes opened lefts done)
    (right : Waits nodes m (lefts.length + 1) rights due)
    (rest : Path nodes opened m frames numbers) :
    Path nodes opened i (⟨p.value, done, due⟩ :: frames) (rights ++ numbers)

inductive Depicts : Sketch → Drawing → Prop
  | growing {nodes cursor n frames numbers} (found : nodes[cursor]? = some n)
    (bare : n.children = []) (path : Path nodes (cursor :: numbers) cursor frames numbers)
    (distinct : (cursor :: numbers).Nodup) (linked : Linked nodes) :
    Depicts ⟨nodes, cursor⟩ (.growing n.value frames)
  | whole {nodes tree} (shows : Shows nodes [] [0] [tree]) (linked : Linked nodes) :
    Depicts ⟨nodes, 0⟩ (.complete tree)

variable {nodes nodes' : Array SketchNode} {opened opened' numbers : List Nat}

theorem treeOf_concat (n : SketchNode) (before : List Tree) (last : Tree) :
    treeOf n (before ++ [last]) = .inner n.value before last := by
  cases before with
  | nil => rfl
  | cons first before =>
    have end_eq : (first :: (before ++ [last])).getLast? = some last := by
      rw [← List.cons_append, List.getLast?_concat]
    simp [treeOf, Tree.inner, end_eq]

theorem Shows.append {xs ys : List Nat} {ts us : List Tree} (first : Shows nodes opened xs ts)
    (second : Shows nodes opened ys us) : Shows nodes opened (xs ++ ys) (ts ++ us) := by
  induction first with
  | nil => exact second
  | cons found closed below _ _ ih => exact .cons found closed below ih

theorem Shows.transfer {trees : List Tree} (shows : Shows nodes opened numbers trees)
    (keep : ∀ j n, nodes[j]? = some n → j ∉ opened → nodes'[j]? = some n ∧ j ∉ opened') :
    Shows nodes' opened' numbers trees := by
  induction shows with
  | nil => exact .nil
  | cons found closed _ _ below rest =>
    obtain ⟨found', closed'⟩ := keep _ _ found closed
    exact .cons found' closed' below rest

theorem Waits.transfer {parent slot : Nat} {symbols : List Symbol}
    (waits : Waits nodes parent slot numbers symbols)
    (keep : ∀ j ∈ numbers, ∀ n, nodes[j]? = some n → nodes'[j]? = some n) :
    Waits nodes' parent slot numbers symbols := by
  induction waits with
  | nil => exact .nil
  | cons found lower _ ih =>
    refine .cons (keep _ (by simp) _ found) lower (ih fun j member => keep j ?_)
    exact List.mem_cons_of_mem _ member

theorem Waits.bare {parent slot : Nat} {symbols : List Symbol}
    (waits : Waits nodes parent slot numbers symbols) :
    ∀ j ∈ numbers, ∃ n, nodes[j]? = some n ∧ n.children = [] := by
  induction waits with
  | nil => simp
  | cons found _ _ ih =>
    intro j member
    rcases List.mem_cons.mp member with rfl | member
    · exact ⟨_, found, rfl⟩
    · exact ih j member

theorem Path.bare {i : Nat} {frames : List Frame} (path : Path nodes opened i frames numbers) :
    ∀ j ∈ numbers, ∃ n, nodes[j]? = some n ∧ n.children = [] := by
  induction path with
  | root => simp
  | under _ _ _ _ _ _ _ right _ ih =>
    intro j member
    rcases List.mem_append.mp member with member | member
    · exact right.bare j member
    · exact ih j member

theorem Path.transfer {i c : Nat} {frames : List Frame} (path : Path nodes opened i frames numbers)
    (low : i ≤ c) (apart : c ∉ numbers) (inside : c ∈ opened)
    (keep : ∀ j n, j ≠ c → nodes[j]? = some n → nodes'[j]? = some n)
    (place : ∀ n, nodes[i]? = some n →
      ∃ n', nodes'[i]? = some n' ∧ n'.parent = n.parent ∧ n'.slot = n.slot)
    (fewer : ∀ j n, nodes[j]? = some n → j ∉ opened → j ∉ opened') :
    Path nodes' opened' i frames numbers := by
  induction path with
  | root found top =>
    obtain ⟨n', found', parent, _⟩ := place _ found
    exact .root found' (parent.trans top)
  | @under i m n p lefts rights done due frames numbers found parent slot above children lower left
      right rest ih =>
    obtain ⟨n', found', parent', slot'⟩ := place _ found
    have other : m ≠ c := by omega
    have shown : Shows nodes' opened' lefts done := by
      refine left.transfer fun j n held closed => ⟨keep j n ?_ held, fewer j n held closed⟩
      exact fun same => closed (same ▸ inside)
    have waits : Waits nodes' m (lefts.length + 1) rights due := by
      refine right.transfer fun j member n held => keep j n ?_ held
      exact fun same => apart (by simp [← same, member])
    have higher : Path nodes' opened' m frames numbers := by
      refine ih (by omega) (fun member => apart (by simp [member])) fun n held => ?_
      exact ⟨n, keep m n other held, rfl, rfl⟩
    exact .under found' (parent'.trans parent) (slot'.trans slot) (keep m p other above) children
      lower shown waits higher

/-- The climb from a complete node ends where the drawing goes on. -/
theorem climb_depicts {i bound : Nat} {frames : List Frame} {t : Tree}
    (path : Path nodes opened i frames numbers) (all : numbers = opened)
    (shows : Shows nodes opened [i] [t]) (distinct : opened.Nodup) (linked : Linked nodes)
    (below : i < bound) :
    ∃ cursor, climb nodes bound i = some cursor ∧
      Depicts ⟨nodes, cursor⟩ (Drawing.resume frames t) := by
  obtain ⟨bound, rfl⟩ : ∃ less, bound = less + 1 := ⟨bound - 1, by omega⟩
  -- The open nodes stay the same while the climb passes frames that wait for nothing.
  induction path generalizing t bound with
  | root found top =>
    subst all
    exact ⟨0, by simp [climb, found, top], .whole shows linked⟩
  | @under i m n p lefts rights done due frames numbers found parent slot above children lower left
      right rest ih =>
    cases right with
    | nil =>
      have last : p.children[n.slot + 1]? = none := by simp [children, slot]
      -- Open nodes have no children, so the parent is none of them.
      have closed : m ∉ opened := by
        intro member
        obtain ⟨q, held, bare⟩ := rest.bare m (by rw [← all] at member; exact member)
        rw [above] at held
        cases held
        simp [children] at bare
      have whole : Shows nodes opened [m] [.inner p.value done t] := by
        rw [← treeOf_concat]
        exact .cons above closed (children ▸ left.append shows) .nil
      obtain ⟨less, rfl⟩ : ∃ less, bound = less + 1 := ⟨bound - 1, by omega⟩
      obtain ⟨cursor, reached, depicts⟩ := ih all whole less (by omega)
      exact ⟨cursor, by simpa [climb, found, parent, above, last] using reached, depicts⟩
    | @cons _ r value span rights symbols foundRight lowerRight later =>
      have next : p.children[n.slot + 1]? = some r := by simp [children, slot]
      refine ⟨r, by simp [climb, found, parent, above, next], ?_⟩
      have longer : Shows nodes opened (lefts ++ [i]) (done ++ [t]) := left.append shows
      have path : Path nodes opened r (⟨p.value, done ++ [t], symbols⟩ :: frames)
          (rights ++ numbers) := by
        refine .under foundRight rfl (by simp) above (by simp [children]) lowerRight longer ?_ rest
        simpa using later
      subst all
      exact .growing (n := ⟨value, some m, lefts.length + 1, [], span⟩) foundRight rfl path distinct
        linked

theorem Linked.modify_span (linked : Linked nodes) (c : Nat) (span : Nat × Nat) :
    Linked (nodes.modify c fun n => { n with span := span }) := by
  intro i n found child member
  obtain ⟨old, held, rfl⟩ := modify_span_cases found
  simpa using linked i old held child member

theorem ofRoot_depicts (value : Symbol) : (ofRoot value).Depicts (.growing value []) := by
  have found := ofRoot_get value
  refine .growing found rfl (.root found rfl) (by simp) ?_
  intro i n held child member
  obtain ⟨_, rfl⟩ := ofRoot_cases held
  cases member

theorem Depicts.current {s : Sketch} {symbol : Symbol} {frames : List Frame}
    (depicts : s.Depicts (.growing symbol frames)) : s.current = some symbol := by
  cases depicts with
  | growing found => simp [Sketch.current, found]

theorem Depicts.complete {s : Sketch} {symbol : Symbol} {frames : List Frame}
    (depicts : s.Depicts (.growing symbol frames)) (span : Nat × Nat) :
    ∃ s', s.complete span = some s' ∧
      s'.Depicts (Drawing.resume frames (.node symbol span.1 span.2 [])) := by
  cases depicts with
  | @growing nodes cursor n _ numbers found bare path distinct linked =>
    obtain ⟨fresh, distinct⟩ := List.nodup_cons.mp distinct
    have held : (nodes.modify cursor fun n => { n with span := span })[cursor]? =
        some { n with span := span } := by simpa using modify_span_get cursor span found
    have path : Path (nodes.modify cursor fun n => { n with span := span }) numbers cursor frames
        numbers := by
      refine path.transfer (Nat.le_refl _) fresh (by simp) ?_ ?_ ?_
      · intro j m other found
        simpa [Ne.symm other] using modify_span_get cursor span found
      · intro m found
        exact ⟨_, modify_span_get cursor span found, rfl, rfl⟩
      · intro j m _ closed member
        exact closed (List.mem_cons_of_mem _ member)
    have shows : Shows (nodes.modify cursor fun n => { n with span := span }) numbers [cursor]
        [.node n.value span.1 span.2 []] := by
      have leaf : treeOf { n with span := span } [] = .node n.value span.1 span.2 [] := rfl
      rw [← leaf]
      exact .cons held fresh (by simpa [bare] using Shows.nil) .nil
    obtain ⟨next, reached, depicts⟩ := climb_depicts path rfl shows distinct
      (linked.modify_span cursor span) (Nat.lt_succ_self cursor)
    exact ⟨⟨_, next⟩, by simp [Sketch.complete, Sketch.next, reached], depicts⟩

theorem Linked.extend {s : Sketch} (linked : Linked s.nodes) (symbols : List Symbol) :
    Linked (s.extend symbols).nodes := by
  intro i n found child member
  rw [extend_size]
  rcases extend_cases found with ⟨old, m, held, rfl⟩ | ⟨k, _, _, rfl⟩
  · by_cases here : s.cursor = i
    · simp only [here, if_true, List.mem_range'_1] at member
      omega
    · simp only [here, if_false] at member
      have known := linked i m held child member
      omega
  · cases member

theorem extend_waits {s : Sketch} (inside : s.cursor < s.nodes.size) {symbols : List Symbol}
    (before : List Symbol) {after : List Symbol} (whole : symbols = before ++ after) :
    Waits (s.extend symbols).nodes s.cursor before.length
      (List.range' (s.nodes.size + before.length) after.length) after := by
  induction after generalizing before with
  | nil => exact .nil
  | cons value after ih =>
    have bound : before.length < symbols.length := by simp [whole]
    have found := extend_get_new s bound
    have here : symbols[before.length] = value := by simp [whole]
    rw [here] at found
    have rest := ih (before ++ [value]) (by simp [whole])
    rw [List.length_append, List.length_singleton, ← Nat.add_assoc] at rest
    exact .cons found (by omega) rest

theorem Depicts.extend {s : Sketch} {symbol : Symbol} {frames : List Frame}
    (depicts : s.Depicts (.growing symbol frames)) (first : Symbol) (due : List Symbol) :
    (s.extend (first :: due)).Depicts (.growing first (⟨symbol, [], due⟩ :: frames)) := by
  cases depicts with
  | @growing nodes cursor n _ numbers found bare path distinct linked =>
    obtain ⟨inside, _⟩ := Array.getElem?_eq_some_iff.mp found
    obtain ⟨fresh, distinct⟩ := List.nodup_cons.mp distinct
    generalize made : Sketch.extend ⟨nodes, cursor⟩ (first :: due) = s'
    have old : ∀ j n, j ≠ cursor → nodes[j]? = some n → s'.nodes[j]? = some n := by
      intro j m other held
      rw [← made]
      exact extend_get_other (first :: due) held other
    have here : s'.nodes[cursor]? =
        some { n with children := List.range' nodes.size (due.length + 1) } := by
      rw [← made]
      exact extend_get_cursor (first :: due) found
    have start : s'.nodes[nodes.size]? = some ⟨first, some cursor, 0, [], (0, 0)⟩ := by
      rw [← made]
      have none : 0 < (first :: due).length := Nat.succ_pos _
      exact extend_get_new ⟨nodes, cursor⟩ none
    have waits : Waits s'.nodes cursor 1 (List.range' (nodes.size + 1) due.length) due := by
      rw [← made]
      exact extend_waits (s := ⟨nodes, cursor⟩) inside [first] rfl
    have small : ∀ j ∈ cursor :: numbers, j < nodes.size := by
      intro j member
      rcases List.mem_cons.mp member with rfl | member
      · exact inside
      · obtain ⟨_, held, _⟩ := path.bare j member
        exact (Array.getElem?_eq_some_iff.mp held).1
    -- The node of the cursor is the only one that changes, so the path above it stays.
    have higher : Path s'.nodes (nodes.size :: (List.range' (nodes.size + 1) due.length ++ numbers))
        cursor frames numbers := by
      refine path.transfer (Nat.le_refl _) fresh (by simp) old ?_ ?_
      · intro m held
        rw [found] at held
        cases held
        exact ⟨_, here, rfl, rfl⟩
      · intro j m held closed member
        obtain ⟨bound, _⟩ := Array.getElem?_eq_some_iff.mp held
        simp only [List.mem_cons, List.mem_append, List.mem_range'_1] at member closed
        rcases member with new | new | waiting
        · omega
        · omega
        · exact closed (Or.inr waiting)
    have slot : 0 = ([] : List Nat).length := rfl
    have children : List.range' nodes.size (due.length + 1) =
        [] ++ nodes.size :: List.range' (nodes.size + 1) due.length := List.range'_succ
    have path' := Path.under start rfl slot here children inside .nil waits higher
    have distinct' : (nodes.size :: (List.range' (nodes.size + 1) due.length ++ numbers)).Nodup := by
      have outside : nodes.size ∉ numbers := fun member => Nat.lt_irrefl _ (small _ (by simp [member]))
      rw [List.nodup_cons, List.nodup_append]
      have first : nodes.size ∉ List.range' (nodes.size + 1) due.length := by
        rw [List.mem_range'_1]
        omega
      refine ⟨by simp [first, outside], List.nodup_range', distinct, fun a new b waiting => ?_⟩
      have bound := small b (by simp [waiting])
      simp only [List.mem_range'_1] at new
      omega
    have cursor' : s' = ⟨s'.nodes, nodes.size⟩ := by rw [← made]; rfl
    rw [cursor']
    exact .growing (n := ⟨first, some cursor, 0, [], (0, 0)⟩) start rfl path' distinct'
      (made ▸ linked.extend (s := ⟨nodes, cursor⟩) (first :: due))

theorem pick_ok (base : Nat) (later : List Tree) {numbers : List Nat}
    (known : ∀ c ∈ numbers, base < c ∧ c < base + 1 + later.length) :
    ∃ children, pick base later numbers = some children ∧
      numbers.map (fun c => later[c - (base + 1)]?) = children.map some := by
  induction numbers with
  | nil => exact ⟨[], rfl, rfl⟩
  | cons c rest ih =>
    obtain ⟨above, bound⟩ := known c (by simp)
    obtain ⟨children, picked, same⟩ := ih fun d member => known d (by simp [member])
    have inside : c - (base + 1) < later.length := by omega
    refine ⟨later[c - (base + 1)] :: children, by simp [pick, above, inside, picked], ?_⟩
    simp [same, inside]

theorem trees_ok (base : Nat) {list : List SketchNode}
    (linked : ∀ (k : Nat) n, list[k]? = some n →
      ∀ c ∈ n.children, base + k < c ∧ c < base + list.length) :
    ∃ all, trees base list = some all ∧ all.length = list.length ∧
      ∀ (k : Nat) n, list[k]? = some n → ∃ children, all[k]? = some (treeOf n children) ∧
        n.children.map (fun c => all[c - base]?) = children.map some := by
  induction list generalizing base with
  | nil => exact ⟨[], rfl, rfl, by simp⟩
  | cons n rest ih =>
    -- Children have greater numbers, so their trees are among those of the rest.
    obtain ⟨later, computed, size, each⟩ := ih (base + 1) fun k m found c member => by
      have known := linked (k + 1) m (by simpa using found) c member
      simp only [List.length_cons] at known
      omega
    have known : ∀ c ∈ n.children, base < c ∧ c < base + 1 + later.length := by
      intro c member
      have bounds := linked 0 n rfl c member
      simp only [List.length_cons] at bounds
      omega
    obtain ⟨children, picked, same⟩ := pick_ok base later known
    refine ⟨treeOf n children :: later, by simp [trees, computed, picked], by simp [size], ?_⟩
    have shift : ∀ c, base < c → (treeOf n children :: later)[c - base]? = later[c - (base + 1)]? := by
      intro c above
      have next : c - base = (c - (base + 1)) + 1 := by omega
      rw [next, List.getElem?_cons_succ]
    intro k m found
    cases k with
    | zero =>
      cases found
      refine ⟨children, rfl, ?_⟩
      rw [← same]
      refine List.map_congr_left fun c member => shift c ?_
      simpa using (linked 0 n rfl c member).1
    | succ k =>
      obtain ⟨below, held, made⟩ := each k m (by simpa using found)
      refine ⟨below, by simpa using held, ?_⟩
      rw [← made]
      refine List.map_congr_left fun c member => shift c ?_
      have known := (linked (k + 1) m found c member).1
      omega

theorem Shows.unique {trees : List Tree} (shows : Shows nodes opened numbers trees) (all : List Tree)
    (each : ∀ (k : Nat) n, nodes[k]? = some n → ∃ children, all[k]? = some (treeOf n children) ∧
      n.children.map (fun c => all[c]?) = children.map some) :
    numbers.map (fun i => all[i]?) = trees.map some := by
  induction shows with
  | nil => rfl
  | @cons i n numbers children trees found _ _ _ below rest =>
    obtain ⟨made, held, same⟩ := each i n found
    rw [same] at below
    have equal : made = children := 
      (List.map_inj_right fun _ _ same => Option.some.inj same).mp below
    rw [List.map_cons, List.map_cons, rest, held, equal]

theorem Depicts.finish {s : Sketch} {tree : Tree} (depicts : s.Depicts (.complete tree)) :
    s.finish = some tree := by
  cases depicts with
  | @whole nodes _ shows linked =>
    have bounds : ∀ (k : Nat) n, nodes.toList[k]? = some n →
        ∀ c ∈ n.children, 0 + k < c ∧ c < 0 + nodes.toList.length := by
      intro k n found c member
      simpa using linked k n (by simpa using found) c member
    obtain ⟨all, computed, _, each⟩ := trees_ok 0 bounds
    have root := shows.unique all fun k n found => by
      simpa using each k n (by simpa using found)
    simp only [List.map_cons, List.map_nil, List.cons.injEq, and_true] at root
    obtain ⟨rest, rfl⟩ : ∃ rest, all = tree :: rest := by
      cases all with
      | nil => simp at root
      | cons first rest =>
        simp only [List.getElem?_cons_zero, Option.some.injEq] at root
        exact ⟨rest, by rw [root]⟩
    simp [Sketch.finish, computed]

end TopDown.Sketch
