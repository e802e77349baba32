import Mathlib.Data.List.Nodup
import TopDown.Proofs.Parse.Itinerary

namespace TopDown

namespace Sketch

/-- The spans of the nodes with these numbers follow each other from a place to a place. Each is that
of an empty leaf, or it is over one token, which is the value of the node. -/
inductive Tiles (tokens : List Symbol) (nodes : Array SketchNode) : Nat → List Nat → Nat → Prop
  | nil {k} : Tiles tokens nodes k [] k
  | empty {k j i n rest} (found : nodes[i]? = some n) (value : n.value = Symbol.empty)
    (span : n.span = (k, k)) (later : Tiles tokens nodes k rest j) :
    Tiles tokens nodes k (i :: rest) j
  | token {k j i n rest} (found : nodes[i]? = some n) (there : tokens[k]? = some n.value)
    (span : n.span = (k, k + 1)) (later : Tiles tokens nodes (k + 1) rest j) :
    Tiles tokens nodes k (i :: rest) j

/-- The nodes without children are those that are completed and then those that are due. -/
structure Aligned (tokens : List Symbol) (s : Sketch) (stack : List Symbol) (position : Nat)
    (done due : List Nat) : Prop where
  placed : Placed s.nodes
  frontier : Frontier s.nodes [0] (done ++ due)
  distinct : (done ++ due).Nodup
  on_way : due ≠ [] → Itinerary s.nodes s.cursor due
  at_root : due = [] → s.cursor = 0
  values : due.map (fun i => s.nodes[i]?.map SketchNode.value) = stack.map some
  tiles : Tiles tokens s.nodes 0 done position

variable {tokens stack symbols below : List Symbol} {nodes nodes' : Array SketchNode} {s s' : Sketch}
  {top : Symbol} {k j position stop : Nat} {numbers more done due : List Nat}

theorem Tiles.append (first : Tiles tokens nodes k numbers position)
    (second : Tiles tokens nodes position more j) : Tiles tokens nodes k (numbers ++ more) j := by
  induction first with
  | nil => exact second
  | empty found value span _ ih => exact .empty found value span (ih second)
  | token found there span _ ih => exact .token found there span (ih second)

theorem Tiles.congr (tiles : Tiles tokens nodes k numbers j)
    (same : ∀ i ∈ numbers, nodes'[i]? = nodes[i]?) : Tiles tokens nodes' k numbers j := by
  induction tiles with
  | nil => exact .nil
  | empty found value span _ ih =>
    obtain ⟨here, same⟩ := List.forall_mem_cons.mp same
    exact .empty (here.trans found) value span (ih same)
  | token found there span _ ih =>
    obtain ⟨here, same⟩ := List.forall_mem_cons.mp same
    exact .token (here.trans found) there span (ih same)

theorem Tiles.values (tiles : Tiles tokens nodes k numbers j) : ∀ i ∈ numbers, ∀ n,
    nodes[i]? = some n → n.value ∈ tokens ∨ n.value = Symbol.empty := by
  induction tiles with
  | nil => simp
  | empty found value _ _ ih =>
    refine List.forall_mem_cons.mpr ⟨fun n held => Or.inr ?_, ih⟩
    rw [found] at held
    cases held
    exact value
  | token found there _ _ ih =>
    refine List.forall_mem_cons.mpr ⟨fun n held => Or.inl ?_, ih⟩
    rw [found] at held
    cases held
    exact List.mem_of_getElem? there

theorem flatMap_replace {c : Nat} {new before after : List Nat} (left : c ∉ before)
    (right : c ∉ after) : (before ++ c :: after).flatMap (fun i => if i = c then new else [i]) =
      before ++ (new ++ after) := by
  have others : ∀ {list : List Nat}, c ∉ list →
      list.flatMap (fun i => if i = c then new else [i]) = list := by
    intro list apart
    have single : ∀ i ∈ list, (if i = c then new else [i]) = [i] := by
      intro i member
      rw [if_neg fun here : i = c => apart (here ▸ member)]
    rw [List.flatMap_congr single, List.flatMap_singleton']
  rw [List.flatMap_append, List.flatMap_cons, if_pos rfl, others left, others right]

theorem ofRoot_aligned (tokens : List Symbol) (value : Symbol) :
    (ofRoot value).Aligned tokens [value] 0 [] [0] := by
  have found := ofRoot_get value
  have placed : Placed (ofRoot value).nodes := by
    refine ⟨⟨_, found, rfl⟩, fun i n held inner => absurd (ofRoot_cases held).1 inner, ?_⟩
    intro m p slot c held place
    simp [(ofRoot_cases held).2] at place
  refine ⟨placed, .leaf found rfl .nil, by simp, fun _ => .last placed.next_root, by simp, ?_, .nil⟩
  simp [found]

namespace Aligned

theorem due_eq (aligned : s.Aligned tokens (top :: below) position done due) :
    ∃ rest, due = s.cursor :: rest ∧ Itinerary s.nodes s.cursor (s.cursor :: rest) := by
  cases due with
  | nil => simpa using aligned.values
  | cons c rest =>
    have way := aligned.on_way (by simp)
    cases way with
    | last ends => exact ⟨[], rfl, .last ends⟩
    | more goes inner later => exact ⟨rest, rfl, .more goes inner later⟩

theorem at_cursor (aligned : s.Aligned tokens (top :: below) position done due) :
    ∃ n, s.nodes[s.cursor]? = some n ∧ n.children = [] ∧ n.value = top := by
  obtain ⟨rest, rfl, _⟩ := aligned.due_eq
  obtain ⟨n, found, bare⟩ := aligned.frontier.bare s.cursor (by simp)
  have values := aligned.values
  simp only [List.map_cons, List.cons.injEq, found, Option.map_some, Option.some.injEq] at values
  exact ⟨n, found, bare, values.1⟩

theorem cursor_fresh (aligned : s.Aligned tokens (top :: below) position done due) :
    s.cursor ∉ done := by
  obtain ⟨rest, rfl, _⟩ := aligned.due_eq
  have apart := (List.nodup_cons.mp (List.nodup_middle.mp aligned.distinct)).1
  exact fun member => apart (List.mem_append_left rest member)

theorem complete (aligned : s.Aligned tokens (top :: below) position done due)
    (completed : s.complete (position, stop) = some s')
    (covers : (top = Symbol.empty ∧ stop = position) ∨
      (tokens[position]? = some top ∧ stop = position + 1)) :
    ∃ rest, s'.Aligned tokens below stop (done ++ [s.cursor]) rest := by
  obtain ⟨n, found, bare, value⟩ := aligned.at_cursor
  have apart := aligned.cursor_fresh
  obtain ⟨rest, rfl, way⟩ := aligned.due_eq
  obtain ⟨_, values⟩ := List.cons_eq_cons.mp aligned.values
  obtain ⟨next', goes, rfl⟩ := Option.map_eq_some_iff.mp completed
  have same : ∀ i, next (s.nodes.modify s.cursor fun n => { n with span := (position, stop) }) i =
      next s.nodes i := fun i => climb_modify_span _ _
  rw [same] at goes
  have held := modify_span_get s.cursor (position, stop) found
  refine ⟨rest, ?_⟩
  constructor
  case placed => exact aligned.placed.modify_span s.cursor (position, stop)
  case frontier => simpa using aligned.frontier.modify_span s.cursor (position, stop)
  case distinct => simpa using aligned.distinct
  case on_way =>
    intro left
    cases way with
    | last => exact absurd rfl left
    | more onward _ later =>
      rw [onward] at goes
      cases goes
      exact later.congr fun i _ => same i
  case at_root =>
    rintro rfl
    cases way with
    | last ends =>
      rw [ends] at goes
      exact (Option.some.inj goes).symm
    | more _ _ later => cases later
  case values => simpa [getElem?_modify_span, Function.comp_def] using values
  case tiles =>
    have before : Tiles tokens (s.nodes.modify s.cursor fun n => { n with span := (position, stop) })
        0 done position := by
      refine aligned.tiles.congr fun i member => ?_
      have other : s.cursor ≠ i := fun here => apart (by simp [here, member])
      simp [Array.getElem?_modify, other]
    refine before.append ?_
    rcases covers with ⟨empty, rfl⟩ | ⟨there, rfl⟩
    · exact .empty held (value.trans empty) (by simp) .nil
    · exact .token held (there.trans (congrArg some value.symm)) (by simp) .nil

theorem extend (aligned : s.Aligned tokens (top :: below) position done due) (nonempty : symbols ≠ []) :
    ∃ due', (s.extend symbols).Aligned tokens (symbols ++ below) position done due' := by
  obtain ⟨n, found, bare, value⟩ := aligned.at_cursor
  obtain ⟨rest, rfl, way⟩ := aligned.due_eq
  obtain ⟨_, values⟩ := List.cons_eq_cons.mp aligned.values
  have old : ∀ i ∈ done ++ s.cursor :: rest, i < s.nodes.size := by
    intro i member
    obtain ⟨_, held, _⟩ := aligned.frontier.bare i member
    exact (Array.getElem?_eq_some_iff.mp held).1
  obtain ⟨apart, distinct⟩ := List.nodup_cons.mp (List.nodup_middle.mp aligned.distinct)
  have kept : ∀ i ∈ done ++ rest, (s.extend symbols).nodes[i]? = s.nodes[i]? := by
    intro i member
    have bound : i < s.nodes.size := old i (by grind)
    have other : i ≠ s.cursor := fun here => apart (here ▸ member)
    rw [Array.getElem?_eq_getElem bound]
    exact extend_get_other symbols (Array.getElem?_eq_getElem bound) other
  refine ⟨List.range' s.nodes.size symbols.length ++ rest, ?_⟩
  constructor
  case placed => exact aligned.placed.extend found bare symbols
  case frontier =>
    have frontier := aligned.frontier.extend found bare nonempty
    rwa [flatMap_replace (by grind) (by grind)] at frontier
  case distinct =>
    have new : ∀ i ∈ List.range' s.nodes.size symbols.length, i ∉ done ++ rest := by
      intro i member inside
      have bound : i < s.nodes.size := old i (by grind)
      obtain ⟨k, _, rfl⟩ := List.mem_range'.mp member
      omega
    have together : (List.range' s.nodes.size symbols.length ++ (done ++ rest)).Nodup :=
      List.nodup_append'.mpr ⟨List.nodup_range', distinct, new⟩
    exact (List.perm_append_comm_assoc _ _ _).nodup_iff.mp together
  case on_way =>
    have bounds : ∀ i ∈ rest, i < s.nodes.size := fun i member => old i (by simp [member])
    exact fun _ => way.extend found bare aligned.placed bounds nonempty
  case at_root => simp [nonempty]
  case values =>
    have fresh : (List.range' s.nodes.size symbols.length).map
        (fun i => (s.extend symbols).nodes[i]?.map SketchNode.value) = symbols.map some := by
      refine List.ext_getElem (by simp) fun k _ _ => ?_
      have bound : k < symbols.length := by simp_all
      simp [extend_get_new s bound]
    have waiting : rest.map (fun i => (s.extend symbols).nodes[i]?.map SketchNode.value) =
        rest.map (fun i => s.nodes[i]?.map SketchNode.value) :=
      List.map_congr_left fun i member => by rw [kept i (by simp [member])]
    rw [List.map_append, List.map_append, fresh, waiting, values]
  case tiles => exact aligned.tiles.congr fun i member => kept i (by simp [member])

end Aligned

end Sketch

end TopDown
