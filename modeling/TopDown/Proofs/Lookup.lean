import Mathlib.Data.List.Forall2

namespace TopDown

variable {α β γ δ : Type} [BEq α] {l : List (α × β)} {key : α} {value : β}

theorem mem_of_lookup [LawfulBEq α] (found : l.lookup key = some value) : (key, value) ∈ l := by
  obtain ⟨front, back, split, _⟩ := List.lookup_eq_some_iff.mp found
  simp [split]

theorem lookup_eq_some_of_unique [LawfulBEq α] (member : (key, value) ∈ l)
    (unique : ∀ other, (key, other) ∈ l → other = value) : l.lookup key = some value := by
  cases found : l.lookup key with
  | none => simpa using List.lookup_eq_none_iff.mp found (key, value) member
  | some other => rw [unique other (mem_of_lookup found)]

theorem map_lookup_eq {m : List (α × γ)} {f : β → δ} {g : γ → δ}
    (same : List.Forall₂ (fun r r' => r.1 = r'.1 ∧ f r.2 = g r'.2) l m) (key : α) :
    (l.lookup key).map f = (m.lookup key).map g := by
  induction same with
  | nil => rfl
  | @cons r r' l m here _ ih =>
    obtain ⟨name, value⟩ := r
    obtain ⟨name', value'⟩ := r'
    obtain ⟨rfl, values⟩ := here
    simp only [List.lookup_cons]
    cases key == name with
    | true => exact congrArg some values
    | false => exact ih

end TopDown
