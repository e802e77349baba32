import Mathlib.Data.List.Induction
import Mathlib.Data.List.Perm.Subperm
import TopDown.Digraph
import TopDown.Proofs.Lookup

namespace TopDown.Digraph

variable {G : Digraph}

/-- Each vertex comes once, and after its successors. -/
def Ordered (G : Digraph) (finished : List Symbol) : Prop :=
  ∀ earlier s later, finished = earlier ++ s :: later → s ∉ earlier ∧
    ∃ next, G.successors s = .ok next ∧ ∀ t ∈ next, t ∈ earlier

theorem ordered_nil : G.Ordered [] := by
  intro earlier s later whole
  simp at whole

theorem Ordered.concat {finished next : List Symbol} {s : Symbol} (ordered : G.Ordered finished)
    (fresh : s ∉ finished) (found : G.successors s = .ok next)
    (before : ∀ t ∈ next, t ∈ finished) : G.Ordered (finished ++ [s]) := by
  intro earlier r later whole
  rcases List.eq_nil_or_concat later with rfl | ⟨later, last, rfl⟩
  · obtain ⟨rfl, same⟩ := List.append_inj' whole rfl
    obtain ⟨rfl, _⟩ := List.cons_eq_cons.mp same
    exact ⟨fresh, next, found, before⟩
  · rw [List.concat_eq_append, ← List.cons_append, ← List.append_assoc] at whole
    exact ordered earlier r later (List.append_inj' whole rfl).1

theorem Ordered.nodup {finished : List Symbol} (ordered : G.Ordered finished) :
    finished.Nodup := by
  induction finished using List.reverseRecOn with
  | nil => exact List.nodup_nil
  | append_singleton finished s ih =>
    have front : G.Ordered finished := by
      intro earlier r later whole
      exact ordered earlier r (later ++ [s]) (by simp [whole])
    have fresh := (ordered finished s [] rfl).1
    rw [List.nodup_append]
    refine ⟨ih front, by simp, fun a member b single => ?_⟩
    obtain rfl := List.mem_singleton.mp single
    exact fun same => fresh (same ▸ member)

theorem mem_vertices {s : Symbol} {next : List Symbol} (found : G.successors s = .ok next) :
    s ∈ G.vertices := by
  unfold successors at found
  split at found
  · rename_i held
    exact List.mem_map.mpr ⟨_, mem_of_lookup held, rfl⟩
  · cases found

theorem Ordered.idxOf_lt {finished next : List Symbol} (ordered : G.Ordered finished) {s t : Symbol}
    (member : s ∈ finished) (found : G.successors s = .ok next) (edge : t ∈ next) :
    finished.idxOf t < finished.idxOf s := by
  obtain ⟨earlier, later, rfl⟩ := List.append_of_mem member
  obtain ⟨fresh, known, found', before⟩ := ordered earlier s later rfl
  rw [found] at found'
  cases found'
  have inside := before t edge
  have place : (earlier ++ s :: later).idxOf s = earlier.length := by
    rw [List.idxOf_append_of_notMem fresh, List.idxOf_cons_self, Nat.add_zero]
  rw [place, List.idxOf_append_of_mem inside]
  exact List.idxOf_lt_length_of_mem inside

theorem Ordered.idxOf_lt_length {finished : List Symbol} (ordered : G.Ordered finished) {s : Symbol}
    (member : s ∈ finished) : finished.idxOf s < G.vertices.length := by
  have inside : finished ⊆ G.vertices := by
    intro t there
    obtain ⟨earlier, later, whole⟩ := List.append_of_mem there
    obtain ⟨_, _, found, _⟩ := ordered earlier t later whole
    exact mem_vertices found
  have short := (ordered.nodup.subperm inside).length_le
  exact Nat.lt_of_lt_of_le (List.idxOf_lt_length_of_mem member) short

/-- What a part of the search does to the finished vertices. None on the path is finished. -/
structure Finishes (G : Digraph) (path tried finished result : List Symbol) : Prop where
  ordered : G.Ordered result
  kept : ∀ t ∈ finished, t ∈ result
  done : ∀ t ∈ tried, t ∈ result
  apart : ∀ t ∈ path, t ∉ result

variable {path tried finished result : List Symbol}

theorem visitEach_finishes {visit : List Symbol → Symbol → List Symbol → Except Failure Search}
    (step : ∀ s finished result, s ∉ path → s ∉ finished → G.Ordered finished →
      (∀ t ∈ path, t ∉ finished) → visit (path ++ [s]) s finished = .ok (.acyclic result) →
        G.Finishes path [s] finished result)
    (ordered : G.Ordered finished) (apart : ∀ t ∈ path, t ∉ finished)
    (visited : visitEach visit path tried finished = .ok (.acyclic result)) :
    G.Finishes path tried finished result := by
  induction tried generalizing finished with
  | nil =>
    cases visited
    exact ⟨ordered, fun _ member => member, by simp, apart⟩
  | cons s rest ih =>
    unfold visitEach at visited
    by_cases closed : s ∈ path
    · simp [closed] at visited
    · rw [if_neg closed] at visited
      by_cases before : s ∈ finished
      · rw [if_pos before] at visited
        have later := ih ordered apart visited
        refine ⟨later.ordered, later.kept, fun t member => ?_, later.apart⟩
        rcases List.mem_cons.mp member with rfl | member
        · exact later.kept _ before
        · exact later.done t member
      · rw [if_neg before] at visited
        split at visited
        · cases visited
        · cases visited
        · rename_i middle inner
          have first := step s finished middle closed before ordered apart inner
          have later := ih first.ordered first.apart visited
          refine ⟨later.ordered, fun t member => later.kept t (first.kept t member),
            fun t member => ?_, later.apart⟩
          rcases List.mem_cons.mp member with rfl | member
          · exact later.kept _ (first.done _ (by simp))
          · exact later.done t member

theorem visit_finishes {bound : Nat} {s : Symbol} (new : s ∉ path) (fresh : s ∉ finished)
    (ordered : G.Ordered finished) (apart : ∀ t ∈ path, t ∉ finished)
    (visited : G.visit bound (path ++ [s]) s finished = .ok (.acyclic result)) :
    G.Finishes path [s] finished result := by
  induction bound generalizing path s finished result with
  | zero => cases visited
  | succ bound ih =>
    unfold visit at visited
    split at visited
    · cases visited
    · rename_i next found
      split at visited
      · rename_i inner below
        cases visited
        -- The vertex is on the path while its successors are tried, so none of them finishes it.
        have longer : ∀ t ∈ path ++ [s], t ∉ finished := by
          intro t member
          rcases List.mem_append.mp member with member | single
          · exact apart t member
          · exact List.mem_singleton.mp single ▸ fresh
        have each := visitEach_finishes (fun _ _ _ new fresh ordered apart => ih new fresh ordered apart)
          ordered longer below
        have last : s ∉ inner := each.apart s (by simp)
        refine ⟨each.ordered.concat last found each.done, ?_, by simp, ?_⟩
        · intro t member
          simp [each.kept t member]
        · intro t member
          have other : t ≠ s := fun same => new (same ▸ member)
          have outside := each.apart t (by simp [member])
          simp [other, outside]
      · rename_i failed
        exact absurd visited (failed _)

theorem exists_ordered (none : G.findCycle = .ok none) :
    ∃ finished, G.Ordered finished ∧ ∀ s ∈ G.vertices, s ∈ finished := by
  unfold findCycle search at none
  split at none
  · cases none
  · cases none
  · rename_i finished searched
    have whole := visitEach_finishes
      (fun _ _ _ new fresh ordered apart => visit_finishes new fresh ordered apart)
      ordered_nil (by simp) searched
    exact ⟨finished, whole.ordered, whole.done⟩

end TopDown.Digraph
