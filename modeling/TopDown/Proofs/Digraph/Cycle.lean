import Mathlib.Data.List.Chain
import Mathlib.Data.List.Nodup
import TopDown.Proofs.Digraph

namespace TopDown

/-- A walk along a relation that ends where it starts. -/
def IsCircuit (R : Symbol → Symbol → Prop) (symbols : List Symbol) : Prop :=
  ∃ s rest, symbols = s :: rest ++ [s] ∧ symbols.IsChain R

/-- A circuit that comes back to no other vertex than the one it starts from. -/
structure IsCycle (R : Symbol → Symbol → Prop) (symbols : List Symbol) : Prop where
  circuit : IsCircuit R symbols
  nodup : symbols.dropLast.Nodup

variable {R S : Symbol → Symbol → Prop} {circuit : List Symbol}

theorem IsCircuit.imp (more : ∀ s t, R s t → S s t) (isCircuit : IsCircuit R circuit) :
    IsCircuit S circuit := by
  obtain ⟨s, rest, whole, chain⟩ := isCircuit
  exact ⟨s, rest, whole, chain.imp more⟩

theorem IsCycle.imp (more : ∀ s t, R s t → S s t) (isCycle : IsCycle R circuit) :
    IsCycle S circuit :=
  ⟨isCycle.circuit.imp more, isCycle.nodup⟩

theorem IsCircuit.exists_mem (isCircuit : IsCircuit R circuit) : ∃ s, s ∈ circuit := by
  obtain ⟨s, rest, rfl, _⟩ := isCircuit
  exact ⟨s, by simp⟩

theorem IsCircuit.exists_next (isCircuit : IsCircuit R circuit) {s : Symbol} (member : s ∈ circuit) :
    ∃ t ∈ circuit, R s t := by
  obtain ⟨root, rest, rfl, chain⟩ := isCircuit
  -- The last place is the first one, so it is enough to look at places before the last.
  have inside : s ∈ root :: rest := by
    rcases List.mem_append.mp member with inside | last
    · exact inside
    · rw [List.mem_singleton.mp last]
      exact List.mem_cons_self
  obtain ⟨front, back, split⟩ := List.append_of_mem inside
  obtain ⟨t, later, onward⟩ := List.exists_cons_of_ne_nil (l := back ++ [root]) (by simp)
  have whole : root :: rest ++ [root] = front ++ s :: t :: later := by simp [split, onward]
  rw [whole] at chain ⊢
  exact ⟨t, by simp, (List.isChain_append_cons_cons.mp chain).2.1⟩

theorem IsCircuit.forall_mem {P : Symbol → Prop} (isCircuit : IsCircuit R circuit)
    (back : ∀ s t, R s t → P t → P s) {s : Symbol} (member : s ∈ circuit) (holds : P s) :
    ∀ t ∈ circuit, P t := by
  obtain ⟨root, rest, rfl, chain⟩ := isCircuit
  obtain ⟨front, later, split⟩ := List.append_of_mem member
  have first : P root := by
    cases front with
    | nil =>
      obtain ⟨rfl, _⟩ := List.cons_eq_cons.mp split
      exact holds
    | cons r front =>
      obtain ⟨rfl, _⟩ := List.cons_eq_cons.mp split
      rw [split, List.append_cons] at chain
      exact chain.left_of_append.backwards_concat_induction P _ back holds root List.mem_cons_self
  intro t inside
  rcases List.mem_append.mp inside with inside | last
  · exact chain.backwards_concat_induction P _ back first t inside
  · rw [List.mem_singleton.mp last]
    exact first

namespace Digraph

def Edge (G : Digraph) (s t : Symbol) : Prop := ∃ next, G.successors s = .ok next ∧ t ∈ next

def Closed (G : Digraph) : Prop :=
  ∀ s ∈ G.vertices, ∃ next, G.successors s = .ok next ∧ ∀ t ∈ next, t ∈ G.vertices

def Search.Sound (G : Digraph) : Search → Prop
  | .cycle symbols => IsCycle G.Edge symbols
  | .acyclic _ => True

structure IsPath (G : Digraph) (path : List Symbol) : Prop where
  nodup : path.Nodup
  edges : path.IsChain G.Edge
  known : ∀ s ∈ path, s ∈ G.vertices

variable {G : Digraph} {path tried : List Symbol} {s : Symbol}

theorem isPath_nil : G.IsPath [] := ⟨List.nodup_nil, .nil, by simp⟩

theorem IsPath.length_le (isPath : G.IsPath path) : path.length ≤ G.vertices.length :=
  (isPath.nodup.subperm isPath.known).length_le

theorem IsPath.concat (isPath : G.IsPath path) (new : s ∉ path) (vertex : s ∈ G.vertices)
    (edges : (path ++ [s]).IsChain G.Edge) : G.IsPath (path ++ [s]) where
  nodup := by
    rw [← List.concat_eq_append]
    exact List.Nodup.concat new isPath.nodup
  edges := edges
  known := by
    intro t member
    rcases List.mem_append.mp member with member | single
    · exact isPath.known t member
    · exact List.mem_singleton.mp single ▸ vertex

theorem IsPath.then_edge (isPath : G.IsPath (path ++ [s])) {next : List Symbol} {t : Symbol}
    (found : G.successors s = .ok next) (member : t ∈ next) :
    (path ++ [s] ++ [t]).IsChain G.Edge := by
  refine isPath.edges.append (List.isChain_singleton t) ?_
  intro r last u first
  simp only [List.getLast?_append, List.getLast?_singleton, Option.some_or, Option.mem_def,
    Option.some.injEq, List.head?_cons] at last first
  subst last first
  exact ⟨next, found, member⟩

theorem exists_dropWhile_eq_cons (member : s ∈ path) :
    ∃ rest, path.dropWhile (· ≠ s) = s :: rest := by
  induction path with
  | nil => cases member
  | cons r path ih =>
    by_cases here : r = s
    · exact ⟨path, by simp [here]⟩
    · have later := (List.mem_cons.mp member).resolve_left fun same => here same.symm
      simpa [here] using ih later

theorem isCycle_of_mem (closed : s ∈ path) (nodup : path.Nodup)
    (edges : (path ++ [s]).IsChain G.Edge) :
    IsCycle G.Edge (path.dropWhile (· ≠ s) ++ [s]) := by
  obtain ⟨rest, starts⟩ := exists_dropWhile_eq_cons closed
  obtain ⟨front, whole⟩ := path.dropWhile_suffix (· ≠ s)
  refine ⟨⟨s, rest, by rw [starts], edges.suffix ⟨front, ?_⟩⟩, ?_⟩
  · rw [← List.append_assoc, whole]
  · rw [List.dropLast_concat]
    exact nodup.sublist (List.dropWhile_sublist _)

theorem visitEach_sound {visit : List Symbol → Symbol → List Symbol → Except Failure Search}
    (finished : List Symbol) (nodup : path.Nodup)
    (step : ∀ s ∈ tried, s ∉ path → ∀ finished,
      ∃ r, visit (path ++ [s]) s finished = .ok r ∧ r.Sound G)
    (edges : ∀ s ∈ tried, (path ++ [s]).IsChain G.Edge) :
    ∃ r, visitEach visit path tried finished = .ok r ∧ r.Sound G := by
  induction tried generalizing finished with
  | nil => exact ⟨_, rfl, trivial⟩
  | cons s rest ih =>
    have later := fun finished => ih finished
      (fun t member => step t (List.mem_cons_of_mem s member))
      (fun t member => edges t (List.mem_cons_of_mem s member))
    unfold visitEach
    by_cases closed : s ∈ path
    · exact ⟨_, if_pos closed, isCycle_of_mem closed nodup (edges s List.mem_cons_self)⟩
    · rw [if_neg closed]
      by_cases before : s ∈ finished
      · rw [if_pos before]
        exact later finished
      · rw [if_neg before]
        obtain ⟨r, visited, sound⟩ := step s List.mem_cons_self closed finished
        rw [visited]
        cases r with
        | cycle symbols => exact ⟨_, rfl, sound⟩
        | acyclic middle => exact later middle

theorem visit_sound (known : G.Closed) {bound : Nat} (finished : List Symbol)
    (isPath : G.IsPath (path ++ [s])) (enough : G.vertices.length < bound + (path.length + 1)) :
    ∃ r, G.visit bound (path ++ [s]) s finished = .ok r ∧ r.Sound G := by
  induction bound generalizing path s finished with
  | zero =>
    -- A path has no more vertices than the graph, and each visit makes it longer.
    have short := isPath.length_le
    rw [List.length_append, List.length_singleton] at short
    omega
  | succ bound ih =>
    obtain ⟨next, found, vertices⟩ := known s (isPath.known s (by simp))
    have edges := fun t member => isPath.then_edge (t := t) found member
    have step : ∀ t ∈ next, t ∉ path ++ [s] → ∀ finished,
        ∃ r, G.visit bound (path ++ [s] ++ [t]) t finished = .ok r ∧ r.Sound G := by
      intro t member new finished
      apply ih finished (isPath.concat new (vertices t member) (edges t member))
      rw [List.length_append, List.length_singleton]
      omega
    obtain ⟨r, visited, sound⟩ := visitEach_sound finished isPath.nodup step edges
    unfold visit
    rw [found]
    dsimp only
    rw [visited]
    cases r with
    | cycle symbols => exact ⟨_, rfl, sound⟩
    | acyclic inner => exact ⟨_, rfl, trivial⟩

theorem search_sound (known : G.Closed) : ∃ r, G.search = .ok r ∧ r.Sound G := by
  apply visitEach_sound
  · exact List.nodup_nil
  · intro s member _ finished
    apply visit_sound known
    · exact isPath_nil.concat List.not_mem_nil member (List.isChain_singleton s)
    · rw [List.length_nil]
      omega
  · exact fun s _ => List.isChain_singleton s

theorem findCycle_sound (known : G.Closed) :
    ∃ found, G.findCycle = .ok found ∧ ∀ cycle, found = some cycle → IsCycle G.Edge cycle := by
  obtain ⟨r, searched, sound⟩ := search_sound known
  unfold findCycle
  rw [searched]
  cases r with
  | cycle symbols =>
    refine ⟨some symbols, rfl, ?_⟩
    intro cycle same
    cases same
    exact sound
  | acyclic finished =>
    refine ⟨none, rfl, ?_⟩
    intro cycle same
    cases same

end Digraph

end TopDown
