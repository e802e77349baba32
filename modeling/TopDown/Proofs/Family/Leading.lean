import TopDown.Family

namespace TopDown

namespace Family

def Defines (F : Family) (s : Symbol) : Prop := ∃ set, F.find s = .ok set

def Has (F : Family) (s x : Symbol) : Prop := ∃ set, F.find s = .ok set ∧ x ∈ set

theorem Has.defines {F : Family} {s x : Symbol} (h : F.Has s x) : F.Defines s := by
  obtain ⟨set, found, _⟩ := h
  exact ⟨set, found⟩

theorem has_iff {F : Family} {s : Symbol} {set : SymbolSet} (found : F.find s = .ok set)
    (x : Symbol) : F.Has s x ↔ x ∈ set := by
  constructor
  · intro h
    obtain ⟨other, found', member⟩ := h
    rw [found] at found'
    cases found'
    exact member
  · intro member
    exact ⟨set, found, member⟩

theorem find_eq_ok {F : Family} {s : Symbol} {set : SymbolSet} :
    F.find s = .ok set ↔ F.entries.lookup s = some set := by
  unfold find
  cases F.entries.lookup s with
  | none => simp
  | some found => simp

theorem find_cons (e : Symbol × SymbolSet) (entries : List (Symbol × SymbolSet)) (s : Symbol) :
    find ⟨e :: entries⟩ s = if s = e.1 then .ok e.2 else find ⟨entries⟩ s := by
  obtain ⟨t, set⟩ := e
  by_cases same : s = t
  · subst same
    simp [find]
  · have other : (s == t) = false := by simpa using same
    simp [find, List.lookup_cons, other, same]

theorem find_map_append (l : List Symbol) (f : Symbol → SymbolSet)
    (rest : List (Symbol × SymbolSet)) (s : Symbol) :
    find ⟨l.map (fun t => (t, f t)) ++ rest⟩ s = if s ∈ l then .ok (f s) else find ⟨rest⟩ s := by
  induction l with
  | nil => simp
  | cons t l ih =>
    rw [List.map_cons, List.cons_append, find_cons, ih]
    by_cases same : s = t
    · simp [same]
    · simp [same]

theorem find_enlarge (F : Family) (s t : Symbol) (more : SymbolSet) :
    (F.enlarge s more).find t =
      if t = s then (F.find t).map fun set => set.union more else F.find t := by
  obtain ⟨entries⟩ := F
  induction entries with
  | nil => by_cases same : t = s <;> simp [enlarge, find, same, Except.map]
  | cons e entries ih =>
    simp only [enlarge, List.map_cons] at ih ⊢
    rw [find_cons, find_cons, ih]
    by_cases here : t = e.1
    · subst here
      by_cases same : e.1 = s <;> simp [same, Except.map]
    · have elsewhere : t ≠ (if e.1 = s then (e.1, e.2.union more) else e).1 := by
        split <;> exact here
      simp [here, elsewhere]

theorem has_enlarge {F : Family} {s : Symbol} (defined : F.Defines s) (more : SymbolSet)
    (t x : Symbol) : (F.enlarge s more).Has t x ↔ F.Has t x ∨ (t = s ∧ x ∈ more) := by
  obtain ⟨old, found⟩ := defined
  by_cases same : t = s
  · subst same
    have grown : (F.enlarge t more).find t = .ok (old.union more) := by
      simp [find_enlarge, found, Except.map]
    simp [has_iff grown, has_iff found]
  · simp [Has, find_enlarge, same]

end Family

/-- What a sequence can begin with when `R` says it of each symbol: `ε` is written for a sequence
that can be empty. -/
inductive Leads (R : Symbol → Symbol → Prop) : List Symbol → Symbol → Prop
  | nil : Leads R [] Symbol.empty
  | mark {rest x} (later : Leads R rest x) : Leads R (Symbol.empty :: rest) x
  | head {s rest x} (plain : s ≠ Symbol.empty) (other : x ≠ Symbol.empty) (here : R s x) :
    Leads R (s :: rest) x
  | pass {s rest x} (plain : s ≠ Symbol.empty) (empty : R s Symbol.empty)
    (later : Leads R rest x) : Leads R (s :: rest) x

namespace Leads

variable {R : Symbol → Symbol → Prop}

theorem nil_iff {x : Symbol} : Leads R [] x ↔ x = Symbol.empty := by
  constructor
  · intro h
    cases h
    rfl
  · intro mark
    subst mark
    exact .nil

theorem mark_iff {rest : List Symbol} {x : Symbol} :
    Leads R (Symbol.empty :: rest) x ↔ Leads R rest x := by
  constructor
  · intro h
    cases h with
    | mark later => exact later
    | head plain => exact absurd rfl plain
    | pass plain => exact absurd rfl plain
  · exact .mark

theorem cons_iff {s : Symbol} (plain : s ≠ Symbol.empty) {rest : List Symbol} {x : Symbol} :
    Leads R (s :: rest) x ↔
      (x ≠ Symbol.empty ∧ R s x) ∨ (R s Symbol.empty ∧ Leads R rest x) := by
  constructor
  · intro h
    cases h with
    | mark => exact absurd rfl plain
    | head _ other here => exact Or.inl ⟨other, here⟩
    | pass _ empty later => exact Or.inr ⟨empty, later⟩
  · intro h
    rcases h with ⟨other, here⟩ | ⟨empty, later⟩
    · exact .head plain other here
    · exact .pass plain empty later

theorem singleton_iff {s : Symbol} (plain : s ≠ Symbol.empty) {x : Symbol} :
    Leads R [s] x ↔ R s x := by
  rw [cons_iff plain, nil_iff]
  by_cases mark : x = Symbol.empty
  · simp [mark]
  · simp [mark]

theorem append_iff {α β : List Symbol} {x : Symbol} :
    Leads R (α ++ β) x ↔
      (x ≠ Symbol.empty ∧ Leads R α x) ∨ (Leads R α Symbol.empty ∧ Leads R β x) := by
  induction α with
  | nil =>
    rw [List.nil_append, nil_iff, nil_iff]
    constructor
    · intro h
      exact Or.inr ⟨rfl, h⟩
    · intro h
      rcases h with ⟨other, mark⟩ | ⟨_, h⟩
      · exact absurd mark other
      · exact h
  | cons s α ih =>
    by_cases plain : s = Symbol.empty
    · subst plain
      rw [List.cons_append, mark_iff, mark_iff, mark_iff, ih]
    · rw [List.cons_append, cons_iff plain, cons_iff plain, cons_iff plain, ih]
      constructor
      · intro h
        rcases h with here | ⟨empty, ⟨other, later⟩ | ⟨passed, later⟩⟩
        · exact Or.inl ⟨here.1, Or.inl here⟩
        · exact Or.inl ⟨other, Or.inr ⟨empty, later⟩⟩
        · exact Or.inr ⟨Or.inr ⟨empty, passed⟩, later⟩
      · intro h
        rcases h with ⟨other, here | ⟨empty, later⟩⟩ | ⟨⟨no, _⟩ | ⟨empty, passed⟩, later⟩
        · exact Or.inl here
        · exact Or.inr ⟨empty, Or.inl ⟨other, later⟩⟩
        · exact absurd rfl no
        · exact Or.inr ⟨empty, Or.inr ⟨passed, later⟩⟩

theorem mono {S : Symbol → Symbol → Prop} {α : List Symbol} {x : Symbol} (h : Leads R α x)
    (more : ∀ s ∈ α, s ≠ Symbol.empty → ∀ y, R s y → S s y) : Leads S α x := by
  induction h with
  | nil => exact .nil
  | mark _ ih => exact .mark (ih fun t member => more t (by simp [member]))
  | head plain other here => exact .head plain other (more _ (by simp) plain _ here)
  | pass plain empty _ ih =>
    exact .pass plain (more _ (by simp) plain _ empty) (ih fun t member => more t (by simp [member]))

theorem mem {α : List Symbol} {x : Symbol} (h : Leads R α x) :
    x = Symbol.empty ∨ ∃ s ∈ α, R s x := by
  induction h with
  | nil => exact Or.inl rfl
  | mark _ ih =>
    refine ih.imp id ?_
    intro h
    obtain ⟨s, member, here⟩ := h
    exact ⟨s, by simp [member], here⟩
  | head _ _ here => exact Or.inr ⟨_, by simp, here⟩
  | pass _ _ _ ih =>
    refine ih.imp id ?_
    intro h
    obtain ⟨s, member, here⟩ := h
    exact ⟨s, by simp [member], here⟩

end Leads

theorem Family.leading_spec {F : Family} {α : List Symbol}
    (defined : ∀ s ∈ α, s ≠ Symbol.empty → F.Defines s) :
    ∃ set, F.leading α = .ok set ∧ ∀ x, x ∈ set ↔ Leads F.Has α x := by
  induction α with
  | nil => exact ⟨_, rfl, fun x => by simp [Leads.nil_iff]⟩
  | cons s α ih =>
    obtain ⟨more, computed, spec⟩ := ih fun t member => defined t (by simp [member])
    by_cases plain : s = Symbol.empty
    · subst plain
      exact ⟨more, by simpa [leading] using computed, fun x => by rw [spec, Leads.mark_iff]⟩
    · obtain ⟨first, found⟩ := defined s (by simp) plain
      by_cases empty : Symbol.empty ∈ first
      · refine ⟨(first.erase Symbol.empty).union more, ?_, fun x => ?_⟩
        · simp [leading, plain, found, empty, computed, Except.map]
        · simp [Leads.cons_iff plain, has_iff found, empty, spec, and_comm]
      · refine ⟨first, ?_, fun x => ?_⟩
        · simp [leading, plain, found, empty]
        · have other : x ∈ first → x ≠ Symbol.empty := fun member mark => empty (mark ▸ member)
          rw [Leads.cons_iff plain, has_iff found, has_iff found]
          constructor
          · intro member
            exact Or.inl ⟨other member, member⟩
          · intro h
            rcases h with ⟨_, member⟩ | ⟨member, _⟩
            · exact member
            · exact absurd member empty

end TopDown
