import TopDown.Proofs.Derivation

namespace TopDown

theorem append_cons_eq_append_append {before after xs ys zs : List Symbol} {s : Symbol}
    (same : xs ++ ys ++ zs = before ++ s :: after) :
    (∃ rest, xs = before ++ s :: rest ∧ after = rest ++ ys ++ zs) ∨
      (∃ left right, before = xs ++ left ∧ ys = left ++ s :: right ∧ after = right ++ zs) ∨
        ∃ rest, before = xs ++ ys ++ rest ∧ zs = rest ++ s :: after := by
  rcases append_eq_append_cons same with ⟨rest, front, back⟩ | ⟨rest, front, back⟩
  · rcases append_eq_append_cons front with ⟨rest', front', back'⟩ | ⟨rest', front', back'⟩
    · exact Or.inl ⟨rest', front', by rw [back, back']⟩
    · exact Or.inr (Or.inl ⟨rest', rest, front', back', back⟩)
  · exact Or.inr (Or.inr ⟨rest, front, back⟩)

namespace Grammar

/-- Where in a derived form a symbol comes from: it stands in the first form already, or in what a
production writes in place of one of its names. -/
inductive Context (g : Grammar) : List Symbol → List Symbol → Symbol → List Symbol → Prop
  | here {before after left right s} (first : g.Derives before left)
    (last : g.Derives after right) : Context g (before ++ s :: after) left s right
  | within {before after left right inner outer s} {p : Production} (member : p ∈ g.productions)
    (first : g.Derives before left) (last : g.Derives after right)
    (inside : Context g p.body inner s outer) :
    Context g (before ++ p.name :: after) (left ++ inner) s (outer ++ right)

variable {g : Grammar}

theorem Context.derives {form left right : List Symbol} {s : Symbol}
    (h : g.Context form left s right) : g.Derives form (left ++ s :: right) := by
  induction h with
  | here first last => exact first.append ((Derives.refl [_]).append last)
  | within member first last _ ih =>
    have inside := (Derives.of_production member).trans ih
    have whole := first.append (inside.append last)
    simpa using whole

theorem Context.of_rewrites {u v left right : List Symbol} {s : Symbol} (step : g.Rewrites u v)
    (h : g.Context v left s right) : g.Context u left s right := by
  obtain ⟨member, xs, zs⟩ := step
  rename_i p
  generalize whole : xs ++ p.body ++ zs = v at h
  cases h with
  | here first last =>
    -- The symbol comes from before, in or after what the production has written.
    rcases append_cons_eq_append_append whole with
      ⟨rest, rfl, rfl⟩ | ⟨inner, outer, rfl, body, rfl⟩ | ⟨rest, rfl, rfl⟩
    · have after := (Derives.replace member rest zs).trans last
      simpa using Context.here (s := s) first after
    · obtain ⟨left₁, left₂, rfl, front, frontInner⟩ := first.split
      obtain ⟨right₁, right₂, rfl, backInner, back⟩ := last.split
      have inside : g.Context p.body left₂ s right₁ := by
        rw [body]
        exact Context.here frontInner backInner
      exact Context.within member front back inside
    · have before := (Derives.replace member xs rest).trans first
      simpa using Context.here (s := s) before last
  | @within _ _ before after inner outer _ q rule first last inside =>
    rcases append_cons_eq_append_append whole with
      ⟨rest, rfl, rfl⟩ | ⟨front, back, rfl, body, rfl⟩ | ⟨rest, rfl, rfl⟩
    · have later := (Derives.replace member rest zs).trans last
      simpa using Context.within rule first later inside
    · obtain ⟨left₁, left₂, rfl, frontOuter, frontInner⟩ := first.split
      obtain ⟨right₁, right₂, rfl, backInner, backOuter⟩ := last.split
      have middle : g.Context p.body (left₂ ++ inner) s (outer ++ right₁) := by
        rw [body]
        exact Context.within rule frontInner backInner inside
      simpa using Context.within member frontOuter backOuter middle
    · have earlier := (Derives.replace member xs rest).trans first
      simpa using Context.within rule earlier last inside

theorem Context.of_derives {form left right : List Symbol} {s : Symbol}
    (h : g.Derives form (left ++ s :: right)) : g.Context form left s right := by
  induction h using Relation.ReflTransGen.head_induction_on with
  | refl => exact Context.here (Derives.refl left) (Derives.refl right)
  | head step _ ih => exact ih.of_rewrites step

theorem singleton_eq_append_cons {r s : Symbol} {before after : List Symbol}
    (same : [r] = before ++ s :: after) : before = [] ∧ s = r ∧ after = [] := by
  cases before with
  | nil =>
    obtain ⟨rfl, rfl⟩ := List.cons_eq_cons.mp same
    exact ⟨rfl, rfl, rfl⟩
  | cons t before => simp at same

theorem Context.of_name {root s : Symbol} {left right : List Symbol}
    (h : g.Context [root] left s right) :
    (s = root ∧ left = [] ∧ right = []) ∨
      ∃ p ∈ g.productions, p.name = root ∧ g.Context p.body left s right := by
  generalize single : [root] = form at h
  cases h with
  | here first last =>
    obtain ⟨rfl, rfl, rfl⟩ := singleton_eq_append_cons single
    exact Or.inl ⟨rfl, first.eq_nil, last.eq_nil⟩
  | within rule first last inside =>
    obtain ⟨rfl, name, rfl⟩ := singleton_eq_append_cons single
    obtain rfl := first.eq_nil
    obtain rfl := last.eq_nil
    exact Or.inr ⟨_, rule, name, by simpa using inside⟩

end Grammar

end TopDown
