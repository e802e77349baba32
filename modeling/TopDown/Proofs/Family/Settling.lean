import Mathlib.Data.List.Perm.Subperm
import TopDown.Proofs.Family.Leading

namespace TopDown

namespace SymbolSet

theorem size_le {s t : SymbolSet} (sub : ∀ x, x ∈ s → x ∈ t) : s.size ≤ t.size :=
  (s.nodup.subperm fun x member => sub x member).length_le

theorem size_lt {s t : SymbolSet} (sub : ∀ x, x ∈ s → x ∈ t) {y : Symbol} (inside : y ∈ t)
    (outside : ¬ y ∈ s) : s.size < t.size := by
  have distinct : (y :: s.toList).Nodup := List.nodup_cons.mpr ⟨outside, s.nodup⟩
  have included : y :: s.toList ⊆ t.toList := by
    intro x member
    rcases List.mem_cons.mp member with rfl | member
    · exact inside
    · exact sub x member
  exact (distinct.subperm included).length_le

end SymbolSet

namespace Family

/-- The same symbols in the same order, each with all its members and perhaps more. -/
def Below (F G : Family) : Prop :=
  List.Forall₂ (fun e e' : Symbol × SymbolSet => e.1 = e'.1 ∧ ∀ x, x ∈ e.2 → x ∈ e'.2)
    F.entries G.entries

theorem Below.refl (F : Family) : F.Below F :=
  List.forall₂_same.mpr fun _ _ => ⟨rfl, fun _ member => member⟩

theorem Below.trans {F G H : Family} (first : F.Below G) (second : G.Below H) : F.Below H := by
  obtain ⟨entries⟩ := F
  obtain ⟨middle⟩ := G
  obtain ⟨last⟩ := H
  simp only [Below] at first second ⊢
  induction first generalizing last with
  | nil => exact second
  | cons here _ ih =>
    cases second with
    | cons next rest =>
      refine .cons ⟨here.1.trans next.1, fun x member => next.2 x (here.2 x member)⟩ (ih _ rest)

theorem below_enlarge (F : Family) (s : Symbol) (more : SymbolSet) :
    F.Below (F.enlarge s more) := by
  simp only [Below, enlarge, List.forall₂_map_right_iff, List.forall₂_same]
  intro e _
  split
  · exact ⟨rfl, fun x member => by simp [member]⟩
  · exact ⟨rfl, fun x member => member⟩

theorem Below.find {F G : Family} (below : F.Below G) {s : Symbol} {set : SymbolSet}
    (found : F.find s = .ok set) :
    ∃ larger, G.find s = .ok larger ∧ ∀ x, x ∈ set → x ∈ larger := by
  obtain ⟨entries⟩ := F
  obtain ⟨larger⟩ := G
  simp only [Below] at below
  induction below with
  | nil => simp [Family.find] at found
  | cons here _ ih =>
    rw [find_cons] at found ⊢
    rw [← here.1]
    split at found
    · cases found
      rename_i same
      exact ⟨_, by simp [same], here.2⟩
    · rename_i other
      simpa [other] using ih found

theorem Below.has {F G : Family} (below : F.Below G) {s x : Symbol} (h : F.Has s x) :
    G.Has s x := by
  obtain ⟨set, found, member⟩ := h
  obtain ⟨larger, found', more⟩ := below.find found
  exact ⟨larger, found', more x member⟩

theorem Below.defines {F G : Family} (below : F.Below G) {s : Symbol} (h : F.Defines s) :
    G.Defines s := by
  obtain ⟨set, found⟩ := h
  obtain ⟨larger, found', _⟩ := below.find found
  exact ⟨larger, found'⟩

theorem Below.room_le {F G : Family} (below : F.Below G) (all : SymbolSet) :
    room all G ≤ room all F := by
  obtain ⟨entries⟩ := F
  obtain ⟨larger⟩ := G
  simp only [Below] at below
  induction below with
  | nil => exact Nat.le_refl _
  | cons here _ ih =>
    have grown := SymbolSet.size_le here.2
    simp only [room, List.foldr_cons] at ih ⊢
    omega

theorem Below.room_lt {F G : Family} (below : F.Below G) {all : SymbolSet} {s x : Symbol}
    (bounded : ∀ y, G.Has s y → y ∈ all) (new : G.Has s x) (missing : ¬ F.Has s x) :
    room all G < room all F := by
  obtain ⟨entries⟩ := F
  obtain ⟨larger⟩ := G
  simp only [Below] at below
  induction below with
  | nil =>
    obtain ⟨set, found, _⟩ := new
    simp [Family.find] at found
  | @cons e e' entries larger here rest ih =>
    by_cases same : s = e.1
    · have lookup : Family.find ⟨e :: entries⟩ s = .ok e.2 := by simp [find_cons, same]
      have lookup' : Family.find ⟨e' :: larger⟩ s = .ok e'.2 := by
        simp [find_cons, same, here.1]
      rw [has_iff lookup'] at new
      rw [has_iff lookup] at missing
      have grown := SymbolSet.size_lt here.2 new missing
      have fits : e'.2.size ≤ all.size :=
        SymbolSet.size_le fun y member => bounded y ((has_iff lookup' y).mpr member)
      have others : room all ⟨larger⟩ ≤ room all ⟨entries⟩ := Below.room_le rest all
      simp only [room, List.foldr_cons] at others ⊢
      omega
    · have tailHas : ∀ y, Has ⟨e :: entries⟩ s y ↔ Has ⟨entries⟩ s y := by
        intro y
        simp [Has, find_cons, same]
      have tailHas' : ∀ y, Has ⟨e' :: larger⟩ s y ↔ Has ⟨larger⟩ s y := by
        intro y
        simp [Has, find_cons, ← here.1, same]
      have smaller : room all ⟨larger⟩ < room all ⟨entries⟩ :=
        ih (fun old => missing ((tailHas x).mpr old))
          (fun y member => bounded y ((tailHas' y).mpr member)) ((tailHas' x).mp new)
      have grown := SymbolSet.size_le here.2
      simp only [room, List.foldr_cons] at smaller ⊢
      omega

/-- A sweep from one family to another works towards a condition `C` on families: it adds only what
`C` demands, and it answers whether it has added something. -/
structure Improves (C : (Symbol → Symbol → Prop) → Prop) (F G : Family) (grew : Bool) : Prop where
  below : F.Below G
  new : grew = true → ∃ s x, G.Has s x ∧ ¬ F.Has s x
  done : grew = false → C F.Has ∧ ∀ s x, G.Has s x → F.Has s x
  least : ∀ R, C R → (∀ s x, F.Has s x → R s x) → ∀ s x, G.Has s x → R s x

theorem Improves.nothing (F : Family) : Improves (fun _ => True) F F false where
  below := Below.refl F
  new := by simp
  done := fun _ => ⟨trivial, fun _ _ member => member⟩
  least := fun _ _ more => more

theorem Improves.and_then {C D : (Symbol → Symbol → Prop) → Prop} {F G H : Family}
    {a b : Bool} (first : Improves C F G a) (second : Improves D G H b) :
    Improves (fun R => C R ∧ D R) F H (a || b) where
  below := first.below.trans second.below
  new := by
    intro grew
    rcases Bool.or_eq_true_iff.mp grew with grew | grew
    · obtain ⟨s, x, new, missing⟩ := first.new grew
      exact ⟨s, x, second.below.has new, missing⟩
    · obtain ⟨s, x, new, missing⟩ := second.new grew
      exact ⟨s, x, new, fun old => missing (first.below.has old)⟩
  done := by
    intro still
    obtain ⟨stillFirst, stillSecond⟩ := Bool.or_eq_false_iff.mp still
    obtain ⟨closed, same⟩ := first.done stillFirst
    obtain ⟨closed', same'⟩ := second.done stillSecond
    have equal : G.Has = F.Has := by
      funext s x
      exact propext ⟨same s x, fun member => first.below.has member⟩
    rw [equal] at closed'
    exact ⟨⟨closed, closed'⟩, fun s x member => same s x (same' s x member)⟩
  least := fun R closed more s x member =>
    second.least R closed.2 (first.least R closed.1 more) s x member

theorem Improves.congr {C D : (Symbol → Symbol → Prop) → Prop} {F G : Family} {a : Bool}
    (h : Improves C F G a) (onFamily : C F.Has → D F.Has)
    (above : ∀ R, (∀ s x, F.Has s x → R s x) → D R → C R) : Improves D F G a where
  below := h.below
  new := h.new
  done := fun still => ⟨onFamily (h.done still).1, (h.done still).2⟩
  least := fun R closed more => h.least R (above R more closed) more

theorem improves_enlarge {F : Family} {s : Symbol} {old : SymbolSet} (found : F.find s = .ok old)
    (more : SymbolSet) :
    Improves (fun R => ∀ x, x ∈ more → R s x) F (F.enlarge s more) (!more.subset old) where
  below := below_enlarge F s more
  new := by
    intro grew
    have larger : ¬ ∀ x, x ∈ more → x ∈ old := by
      intro sub
      rw [SymbolSet.subset_iff.mpr sub] at grew
      cases grew
    obtain ⟨x, new⟩ := not_forall.mp larger
    obtain ⟨inside, outside⟩ := Classical.not_imp.mp new
    refine ⟨s, x, (has_enlarge ⟨old, found⟩ more s x).mpr (Or.inr ⟨rfl, inside⟩), fun h => ?_⟩
    exact outside ((has_iff found x).mp h)
  done := by
    intro still
    have sub : ∀ x, x ∈ more → x ∈ old :=
      SymbolSet.subset_iff.mp (by simpa using still)
    have inside : ∀ x, x ∈ more → F.Has s x := fun x member => (has_iff found x).mpr (sub x member)
    refine ⟨inside, fun t x member => ?_⟩
    rcases (has_enlarge ⟨old, found⟩ more t x).mp member with member | ⟨rfl, demanded⟩
    · exact member
    · exact inside x demanded
  least := by
    intro R closed included t x member
    rcases (has_enlarge ⟨old, found⟩ more t x).mp member with member | ⟨rfl, demanded⟩
    · exact included t x member
    · exact closed x demanded

theorem mem_members {F : Family} {x : Symbol} : x ∈ F.members ↔ ∃ e ∈ F.entries, x ∈ e.2 := by
  have general : ∀ (entries : List (Symbol × SymbolSet)) (u : SymbolSet),
      x ∈ entries.foldl (fun u e => u.union e.2) u ↔ x ∈ u ∨ ∃ e ∈ entries, x ∈ e.2 := by
    intro entries
    induction entries with
    | nil => simp
    | cons e entries ih =>
      intro u
      simp only [List.foldl_cons, ih, SymbolSet.mem_union, List.mem_cons, exists_eq_or_imp, or_assoc]
  have none : ¬ x ∈ (∅ : SymbolSet) := SymbolSet.not_mem_empty x
  simpa [members, none] using general F.entries ∅

theorem Has.mem_members {F : Family} {s x : Symbol} (h : F.Has s x) : x ∈ F.members := by
  obtain ⟨set, found, member⟩ := h
  rw [find_eq_ok, List.lookup_eq_some_iff] at found
  obtain ⟨before, after, entries, _⟩ := found
  exact Family.mem_members.mpr ⟨(s, set), by simp [entries], member⟩

/-- A family that a sweep has settled on: the least one above the initial one with a condition. -/
structure SettledOn (C : (Symbol → Symbol → Prop) → Prop) (F G : Family) : Prop where
  below : F.Below G
  closed : C G.Has
  least : ∀ R, C R → (∀ s x, F.Has s x → R s x) → ∀ s x, G.Has s x → R s x

theorem settle_ok {C : (Symbol → Symbol → Prop) → Prop} {sweep : Sweep} (all : SymbolSet)
    {defined : Symbol → Prop} (demand : C fun _ x => x ∈ all)
    (step : ∀ F : Family, (∀ s, defined s → F.Defines s) →
      ∃ G grew, sweep F = (G, .ok grew) ∧ Improves C F G grew)
    {bound : Nat} {F : Family} (complete : ∀ s, defined s → F.Defines s)
    (bounded : ∀ s x, F.Has s x → x ∈ all) (enough : room all F < bound) :
    ∃ settled, settle sweep bound F = .ok settled ∧ SettledOn C F settled.family := by
  induction bound generalizing F with
  | zero => omega
  | succ bound ih =>
    obtain ⟨G, grew, swept, improves⟩ := step F complete
    cases grew with
    | false =>
      obtain ⟨closed, same⟩ := improves.done rfl
      have equal : G.Has = F.Has := by
        funext s x
        exact propext ⟨same s x, fun member => improves.below.has member⟩
      exact ⟨⟨G, 1⟩, by simp [settle, swept], improves.below, equal ▸ closed, improves.least⟩
    | true =>
      have boundedG : ∀ s x, G.Has s x → x ∈ all := improves.least _ demand bounded
      obtain ⟨s, x, new, missing⟩ := improves.new rfl
      have fewer := improves.below.room_lt (boundedG s) new missing
      obtain ⟨settled, result, on⟩ :=
        ih (fun s known => improves.below.defines (complete s known)) boundedG (by omega)
      refine ⟨⟨settled.family, settled.sweeps + 1⟩, by simp [settle, swept, result, Except.map], ?_⟩
      exact ⟨improves.below.trans on.below, on.closed, fun R closed more =>
        on.least R closed (improves.least R closed more)⟩

end Family

end TopDown
