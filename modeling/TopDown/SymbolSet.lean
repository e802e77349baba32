import TopDown.Symbol

namespace TopDown

/-- A set has one representation, so sets with the same members are equal, and the list is also the
order in which a set is printed. -/
structure SymbolSet where
  toList : List Symbol
  ascending : toList.Pairwise (· < ·)
  deriving DecidableEq

namespace SymbolSet

instance : Membership Symbol SymbolSet := ⟨fun s x => x ∈ s.toList⟩

instance (x : Symbol) (s : SymbolSet) : Decidable (x ∈ s) :=
  inferInstanceAs (Decidable (x ∈ s.toList))

theorem mem_toList {x : Symbol} {s : SymbolSet} : x ∈ s.toList ↔ x ∈ s := Iff.rfl

def insertAscending (x : Symbol) : List Symbol → List Symbol
  | [] => [x]
  | y :: ys =>
    if x < y then x :: y :: ys
    else if x = y then y :: ys
    else y :: insertAscending x ys

theorem mem_insertAscending {x y : Symbol} {l : List Symbol} :
    y ∈ insertAscending x l ↔ y = x ∨ y ∈ l := by
  induction l with
  | nil => simp [insertAscending]
  | cons z zs ih =>
    simp only [insertAscending]
    split
    · simp
    · split
      · rename_i same
        subst same
        simp
      · simp only [List.mem_cons, ih]
        constructor <;> rintro (h | h | h) <;> simp [h]

theorem pairwise_insertAscending {x : Symbol} {l : List Symbol} (ordered : l.Pairwise (· < ·)) :
    (insertAscending x l).Pairwise (· < ·) := by
  induction l with
  | nil => simp [insertAscending]
  | cons y ys ih =>
    obtain ⟨head, tail⟩ := List.pairwise_cons.mp ordered
    simp only [insertAscending]
    split
    · rename_i below
      refine List.pairwise_cons.mpr ⟨fun z member => ?_, ordered⟩
      rcases List.mem_cons.mp member with rfl | member
      · exact below
      · exact String.lt_trans below (head z member)
    · split
      · exact ordered
      · rename_i notBelow different
        refine List.pairwise_cons.mpr ⟨fun z member => ?_, ih tail⟩
        rcases mem_insertAscending.mp member with rfl | member
        · exact Std.lt_of_le_of_ne (String.not_lt.mp notBelow) (fun same => different same.symm)
        · exact head z member

def empty : SymbolSet := ⟨[], List.Pairwise.nil⟩

instance : EmptyCollection SymbolSet := ⟨empty⟩

def insert (x : Symbol) (s : SymbolSet) : SymbolSet :=
  ⟨insertAscending x s.toList, pairwise_insertAscending s.ascending⟩

def ofList (l : List Symbol) : SymbolSet := l.foldl (fun s x => s.insert x) empty

def singleton (x : Symbol) : SymbolSet := insert x empty

def union (s t : SymbolSet) : SymbolSet := t.toList.foldl (fun u x => u.insert x) s

def filter (keep : Symbol → Bool) (s : SymbolSet) : SymbolSet :=
  ⟨s.toList.filter keep, s.ascending.filter keep⟩

def erase (s : SymbolSet) (x : Symbol) : SymbolSet := s.filter (· ≠ x)

def subset (s t : SymbolSet) : Bool := s.toList.all (· ∈ t)

def size (s : SymbolSet) : Nat := s.toList.length

def extend (s t : SymbolSet) : SymbolSet × Bool := (s.union t, !t.subset s)

@[simp] theorem not_mem_empty (x : Symbol) : ¬ x ∈ empty := List.not_mem_nil

@[simp] theorem mem_insert {x y : Symbol} {s : SymbolSet} : y ∈ s.insert x ↔ y = x ∨ y ∈ s :=
  mem_insertAscending

theorem mem_foldl_insert {y : Symbol} (l : List Symbol) (s : SymbolSet) :
    y ∈ l.foldl (fun u x => u.insert x) s ↔ y ∈ s ∨ y ∈ l := by
  induction l generalizing s with
  | nil => simp
  | cons x xs ih =>
    simp only [List.foldl_cons, ih, mem_insert, List.mem_cons]
    constructor
    · rintro ((h | h) | h) <;> simp [h]
    · rintro (h | h | h) <;> simp [h]

@[simp] theorem mem_ofList {y : Symbol} {l : List Symbol} : y ∈ ofList l ↔ y ∈ l := by
  simp [ofList, mem_foldl_insert]

@[simp] theorem mem_singleton {x y : Symbol} : y ∈ singleton x ↔ y = x := by
  simp [singleton]

@[simp] theorem mem_union {y : Symbol} {s t : SymbolSet} : y ∈ s.union t ↔ y ∈ s ∨ y ∈ t :=
  mem_foldl_insert t.toList s

@[simp] theorem mem_filter {y : Symbol} {keep : Symbol → Bool} {s : SymbolSet} :
    y ∈ s.filter keep ↔ y ∈ s ∧ keep y = true :=
  List.mem_filter

@[simp] theorem mem_erase {x y : Symbol} {s : SymbolSet} : y ∈ s.erase x ↔ y ∈ s ∧ y ≠ x := by
  simp [erase]

@[simp] theorem subset_iff {s t : SymbolSet} : s.subset t = true ↔ ∀ x, x ∈ s → x ∈ t := by
  simp [subset, mem_toList]

theorem nodup (s : SymbolSet) : s.toList.Nodup := by
  refine List.Pairwise.imp ?_ s.ascending
  intro x y below same
  exact String.lt_irrefl x (same ▸ below)

theorem eq_of_ascending {l m : List Symbol} (hl : l.Pairwise (· < ·)) (hm : m.Pairwise (· < ·))
    (same : ∀ x, x ∈ l ↔ x ∈ m) : l = m := by
  induction l generalizing m with
  | nil =>
    cases m with
    | nil => rfl
    | cons y ys => exact absurd ((same y).mpr (by simp)) (by simp)
  | cons x xs ih =>
    cases m with
    | nil => exact absurd ((same x).mp (by simp)) (by simp)
    | cons y ys =>
      obtain ⟨belowX, tailX⟩ := List.pairwise_cons.mp hl
      obtain ⟨belowY, tailY⟩ := List.pairwise_cons.mp hm
      have heads : x = y := by
        rcases List.mem_cons.mp ((same x).mp (by simp)) with h | h
        · exact h
        · rcases List.mem_cons.mp ((same y).mpr (by simp)) with k | k
          · exact k.symm
          · exact absurd (String.lt_trans (belowX y k) (belowY x h)) (String.lt_irrefl x)
      subst heads
      congr 1
      refine ih tailX tailY fun z => ⟨fun member => ?_, fun member => ?_⟩
      · rcases List.mem_cons.mp ((same z).mp (List.mem_cons_of_mem _ member)) with rfl | h
        · exact absurd (belowX z member) (String.lt_irrefl z)
        · exact h
      · rcases List.mem_cons.mp ((same z).mpr (List.mem_cons_of_mem _ member)) with rfl | h
        · exact absurd (belowY z member) (String.lt_irrefl z)
        · exact h

@[ext] theorem ext {s t : SymbolSet} (same : ∀ x, x ∈ s ↔ x ∈ t) : s = t := by
  obtain ⟨l, hl⟩ := s
  obtain ⟨m, hm⟩ := t
  have lists : l = m := eq_of_ascending hl hm same
  subst lists
  rfl

end SymbolSet

end TopDown
