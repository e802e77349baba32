import TopDown.Table.Layout
import TopDown.Proofs.Text.Fields
import TopDown.Proofs.Text.Reading

namespace TopDown

section Plain

/-- Text that can be told from padding, from a separator and from an empty line. -/
structure Text.Plain (s : String) : Prop extends Text.Solid s where
  ne_empty : s ≠ ""

instance (s : String) : Decidable (Text.Plain s) :=
  decidable_of_iff (Text.Solid s ∧ s ≠ "")
    ⟨fun ⟨solid, filled⟩ => ⟨solid, filled⟩, fun plain => ⟨plain.toSolid, plain.ne_empty⟩⟩

namespace Text

variable {s t : String} {i j : Int}

theorem Plain.append (first : Plain s) (second : Solid t) : Plain (s ++ t) where
  no_blank := by simp [first.no_blank, second.no_blank]
  no_break := by simp [first.no_break, second.no_break]
  ne_empty := fun none => first.ne_empty (String.append_eq_empty_iff.mp none).1

theorem number_ne_empty (i : Int) : toString i ≠ "" := by
  intro none
  have chars := congrArg String.toList none
  cases i with
  | ofNat n =>
    obtain ⟨first, rest, digits, _⟩ := natural_begins n
    change (toString n).toList = _ at chars
    rw [digits] at chars
    cases chars
  | negSucc n =>
    rw [toList_toString_negSucc] at chars
    cases chars

theorem plain_number (i : Int) : Plain (toString i) where
  no_blank := fun member => absurd (mem_toList_number member) (by decide)
  no_break := fun member => absurd (mem_toList_number member) (by decide)
  ne_empty := number_ne_empty i

theorem eq_of_toString_eq (same : toString i = toString j) : i = j := by
  have ends : EndsNumber [] := fun c first => absurd first (by simp)
  exact (eq_of_number ends ends (congrArg (fun s => s.toList ++ []) same)).1

end Text

end Plain

namespace Production

variable {p q : Production} {ps qs : List Production}

def words (p : Production) : List String := (toString p.index ++ ":") :: p.name :: "->" :: p.symbols

theorem words_injective : Function.Injective words := by
  intro p q same
  obtain ⟨name, symbols, index⟩ := p
  obtain ⟨name', symbols', index'⟩ := q
  simp only [words, List.cons.injEq, true_and] at same
  obtain ⟨code, rfl, rfl⟩ := same
  rw [Text.eq_of_toString_eq ((String.append_left_inj ":").mp code)]

structure Legible (p : Production) : Prop where
  name : Text.Plain p.name
  symbols : ∀ s ∈ p.symbols, Text.Plain s
  ne_nil : p.symbols ≠ []

theorem Legible.words (legible : p.Legible) : ∀ s ∈ p.words, Text.Plain s := by
  have colon : Text.Solid ":" := by decide
  have arrow : Text.Plain "->" := by decide
  have code := (Text.plain_number p.index).append colon
  simp only [Production.words, List.forall_mem_cons]
  exact ⟨code, legible.name, arrow, legible.symbols⟩

theorem Legible.listing_eq (legible : p.Legible) : p.listing = " ".intercalate p.words := by
  obtain ⟨s, rest, symbols⟩ := List.exists_cons_of_ne_nil legible.ne_nil
  rw [listing, text, Production.words, symbols, String.intercalate_cons_cons,
    String.intercalate_cons_cons, String.intercalate_cons_cons, ← String.toList_inj]
  simp

theorem Legible.splitAt_listing (legible : p.Legible) : Text.splitAt ' ' p.listing = p.words := by
  rw [legible.listing_eq]
  exact Text.splitAt_intercalate rfl (fun s member => (legible.words s member).no_blank)
    (by simp [Production.words])

theorem Legible.no_break (legible : p.Legible) : '\n' ∉ p.listing.toList := by
  rw [legible.listing_eq]
  intro member
  rcases Text.mem_toList_intercalate member with blank | ⟨s, inside, char⟩
  · exact absurd blank (by decide)
  · exact (legible.words s inside).no_break char

theorem listing_ne_empty (p : Production) : p.listing ≠ "" := by
  simp [listing, String.append_eq_empty_iff]

theorem eq_of_map_listing (legible : ∀ p ∈ ps, p.Legible) (legible' : ∀ q ∈ qs, q.Legible)
    (same : ps.map listing = qs.map listing) : ps = qs := by
  have read : ∀ ps : List Production, (∀ p ∈ ps, p.Legible) →
      (ps.map listing).map (Text.splitAt ' ') = ps.map words := by
    intro ps legible
    rw [List.map_map]
    exact List.map_congr_left fun p member => (legible p member).splitAt_listing
  apply List.map_injective_iff.mpr words_injective
  rw [← read ps legible, ← read qs legible', same]

end Production

namespace Table

variable {t : Table} {p q : Production} {ps qs : List Production}

theorem mem_place (unique : ∀ q ∈ ps, p.index = q.index → p = q) :
    q ∈ place p ps ↔ q = p ∨ q ∈ ps := by
  induction ps with
  | nil => simp [place]
  | cons r ps ih =>
    obtain ⟨here, later⟩ := List.forall_mem_cons.mp unique
    unfold place
    split
    · simp
    · split
      · rename_i same
        simp [here same]
      · rw [List.mem_cons, ih later, List.mem_cons]
        exact or_left_comm

theorem mem_foldl_place
    (unique : ∀ p ∈ qs ++ ps, ∀ q ∈ qs ++ ps, p.index = q.index → p = q) :
    q ∈ ps.foldl (fun qs p => place p qs) qs ↔ q ∈ qs ∨ q ∈ ps := by
  induction ps generalizing qs with
  | nil => simp
  | cons p ps ih =>
    have placed : ∀ r, r ∈ place p qs ↔ r = p ∨ r ∈ qs := fun r =>
      mem_place fun r member => unique p (by simp) r (by simp [member])
    have same : ∀ r, r ∈ place p qs ++ ps ↔ r ∈ qs ++ p :: ps := by
      intro r
      simp only [List.mem_append, List.mem_cons, placed]
      exact or_assoc.trans or_left_comm
    rw [List.foldl_cons, ih, placed, List.mem_cons]
    · exact or_assoc.trans or_left_comm
    · exact fun r first s second =>
        unique r ((same r).mp first) s ((same s).mp second)

theorem mem_listed (unique : ∀ p ∈ t.productions, ∀ q ∈ t.productions, p.index = q.index → p = q) :
    p ∈ t.listed ↔ p ∈ t.productions := by
  have placed : p ∈ t.listed ↔ p ∈ [] ∨ p ∈ t.productions := mem_foldl_place unique
  simpa using placed

end Table

end TopDown
