import Mathlib.Data.List.Basic
import TopDown.Tree

namespace TopDown.Tree

theorem forall_mem_zip {α : Type} {xs ys : List α} (lengths : xs.length = ys.length) :
    (∀ pair ∈ xs.zip ys, pair.1 = pair.2) ↔ xs = ys := by
  induction xs generalizing ys with
  | nil => simp [List.eq_nil_of_length_eq_zero lengths.symm]
  | cons x xs ih =>
    obtain ⟨y, ys, rfl⟩ := List.exists_cons_of_length_eq_add_one lengths.symm
    rw [List.zip_cons_cons, List.forall_mem_cons, ih (Nat.succ.inj lengths), List.cons.injEq]

theorem sameEach_iff (pending : List (Tree × Tree)) :
    sameEach pending = true ↔ ∀ pair ∈ pending, pair.1 = pair.2 := by
  fun_induction sameEach pending with
  | case1 => simp
  | case2 value start stop children value' start' stop' children' rest agree ih =>
    obtain ⟨rfl, rfl, rfl, lengths⟩ := agree
    have below := forall_mem_zip lengths
    rw [ih, List.forall_mem_append, below, List.forall_mem_cons]
    simp
  | case3 value start stop children value' start' stop' children' rest differ =>
    refine iff_of_false Bool.false_ne_true fun all => differ ?_
    have first := all _ List.mem_cons_self
    simp only [node.injEq] at first
    obtain ⟨rfl, rfl, rfl, rfl⟩ := first
    exact ⟨rfl, rfl, rfl, rfl⟩

theorem same_iff {t u : Tree} : t.same u = true ↔ t = u := by
  simp [same, sameEach_iff]

instance : LawfulBEq Tree where
  eq_of_beq := same_iff.mp
  rfl := same_iff.mpr rfl

end TopDown.Tree
