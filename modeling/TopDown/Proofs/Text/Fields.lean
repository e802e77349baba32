import Mathlib.Algebra.GroupWithZero.Nat
import Mathlib.Data.List.Basic
import TopDown.Text

namespace TopDown.Text

variable {mark c : Char} {sep s t : String} {pieces : List String} {m n : Nat}

section Splitting

def splitAt (mark : Char) (s : String) : List String :=
  (s.toList.splitOn mark).map String.ofList

theorem splitAt_intercalate (single : sep.toList = [mark])
    (free : ∀ s ∈ pieces, mark ∉ s.toList) (some : pieces ≠ []) :
    splitAt mark (sep.intercalate pieces) = pieces := by
  have read : ([mark].intercalate (pieces.map String.toList)).splitOn mark =
      pieces.map String.toList :=
    List.splitOn_intercalate mark (by simpa using free) (by simpa using some)
  rw [splitAt, String.toList_intercalate, single, read]
  simp [Function.comp_def]

theorem mem_toList_intercalate (member : c ∈ (sep.intercalate pieces).toList) :
    c ∈ sep.toList ∨ ∃ s ∈ pieces, c ∈ s.toList := by
  induction pieces with
  | nil => simp at member
  | cons s rest ih =>
    cases rest with
    | nil => exact Or.inr ⟨s, by simp, by simpa using member⟩
    | cons t rest =>
      rw [String.intercalate_cons_cons, String.toList_append, String.toList_append,
        List.mem_append, List.mem_append] at member
      rcases member with (here | mark) | later
      · exact Or.inr ⟨s, by simp, here⟩
      · exact Or.inl mark
      · exact (ih later).imp id fun ⟨u, inside, char⟩ => ⟨u, by simp [inside], char⟩

theorem intercalate_flatten {parts : List (List String)} (filled : ∀ p ∈ parts, p ≠ []) :
    sep.intercalate (parts.map sep.intercalate) = sep.intercalate parts.flatten := by
  induction parts with
  | nil => rfl
  | cons p rest ih =>
    have later := ih fun q member => filled q (List.mem_cons_of_mem p member)
    cases rest with
    | nil => simp
    | cons q rest =>
      have here := filled p List.mem_cons_self
      have next : (q :: rest).flatten ≠ [] := by simp [filled q (by simp)]
      rw [List.flatten_cons, String.intercalate_append_of_ne_nil here next, ← later]
      simp

end Splitting

section Padding

theorem length_padRight (fits : s.length ≤ n) : (padRight n s).length = n := by
  rw [padRight, String.length_append, blanks, String.length_ofList, List.length_replicate]
  omega

theorem blanks_succ (n : Nat) : blanks (n + 1) = " " ++ blanks n := by
  rw [← String.toList_inj]
  simp [blanks, List.replicate_succ]

def spread (n : Nat) (s : String) : List String := s :: List.replicate (n - s.length) ""

theorem padRight_eq_intercalate (n : Nat) (s : String) :
    padRight n s = " ".intercalate (spread n s) := by
  rw [padRight, spread]
  induction n - s.length generalizing s with
  | zero => simp [blanks]
  | succ k ih =>
    rw [List.replicate_succ, String.intercalate_cons_cons, ← ih, blanks_succ]
    simp [String.append_assoc]

theorem not_mem_spread (free : ' ' ∉ s.toList) : ∀ t ∈ spread n s, ' ' ∉ t.toList := by
  intro t member
  rcases List.mem_cons.mp member with rfl | blank
  · exact free
  · rw [List.eq_of_mem_replicate blank]
    simp

theorem eq_of_padRight_eq (free : ' ' ∉ s.toList) (free' : ' ' ∉ t.toList)
    (same : padRight n s = padRight n t) : s = t := by
  rw [padRight_eq_intercalate, padRight_eq_intercalate] at same
  have lists := congrArg (splitAt ' ') same
  rw [splitAt_intercalate rfl (not_mem_spread free) (by simp [spread]),
    splitAt_intercalate rfl (not_mem_spread free') (by simp [spread])] at lists
  exact (List.cons.inj lists).1

theorem mem_toList_padRight (member : c ∈ (padRight n s).toList) : c = ' ' ∨ c ∈ s.toList := by
  rw [padRight, String.toList_append, List.mem_append] at member
  rcases member with char | blank
  · exact Or.inr char
  · rw [blanks, String.toList_ofList] at blank
    exact Or.inl (List.eq_of_mem_replicate blank)

end Padding

section Rows

/-- Text on one line and without gaps. -/
structure Solid (s : String) : Prop where
  no_blank : ' ' ∉ s.toList
  no_break : '\n' ∉ s.toList

instance (s : String) : Decidable (Solid s) :=
  decidable_of_iff (' ' ∉ s.toList ∧ '\n' ∉ s.toList)
    ⟨fun ⟨blank, line⟩ => ⟨blank, line⟩, fun solid => ⟨solid.no_blank, solid.no_break⟩⟩

abbrev Field := String × Nat

/-- The text of a field is solid and needs no more than the width. -/
structure Field.Fits (f : Field) : Prop where
  length_le : f.1.length ≤ f.2
  solid : Solid f.1

def row (fields : List Field) : String := " ".intercalate (fields.map fun f => padRight f.2 f.1)

variable {f g : Field} {fs gs : List Field}

theorem row_cons_cons (f g : Field) (fs : List Field) :
    row (f :: g :: fs) = padRight f.2 f.1 ++ (" " ++ row (g :: fs)) := by
  simp [row, String.append_assoc]

theorem mem_toList_row (member : c ∈ (row fs).toList) : c = ' ' ∨ ∃ f ∈ fs, c ∈ f.1.toList := by
  rcases mem_toList_intercalate member with blank | ⟨s, inside, char⟩
  · exact Or.inl (by simpa using blank)
  · obtain ⟨f, field, rfl⟩ := List.mem_map.mp inside
    exact (mem_toList_padRight char).imp id fun char => ⟨f, field, char⟩

theorem row_no_break (fits : ∀ h ∈ fs, h.Fits) : '\n' ∉ (row fs).toList := by
  intro member
  rcases mem_toList_row member with blank | ⟨f, inside, char⟩
  · exact absurd blank (by decide)
  · exact (fits f inside).solid.no_break char

theorem length_row (fits : ∀ h ∈ f :: fs, h.Fits) :
    (row (f :: fs)).length + 1 = (((f :: fs).map Prod.snd).map (· + 1)).sum := by
  induction fs generalizing f with
  | nil => simp [row, length_padRight (fits f List.mem_cons_self).length_le]
  | cons g fs ih =>
    have later := ih fun h member => fits h (List.mem_cons_of_mem f member)
    have here := length_padRight (fits f List.mem_cons_self).length_le
    have blank : " ".length = 1 := rfl
    rw [row_cons_cons, List.map_cons, List.map_cons, List.sum_cons, ← later, String.length_append,
      String.length_append, here, blank]
    omega

theorem append_inj {a b : String} (length : a.length = b.length) (same : a ++ s = b ++ t) :
    a = b ∧ s = t := by
  rw [← String.toList_inj, String.toList_append, String.toList_append] at same
  obtain ⟨front, back⟩ := List.append_inj same (by simpa [String.length_toList] using length)
  exact ⟨String.toList_inj.mp front, String.toList_inj.mp back⟩

theorem eq_of_row_eq (fitsF : ∀ h ∈ fs, h.Fits) (fitsG : ∀ h ∈ gs, h.Fits)
    (widths : fs.map Prod.snd = gs.map Prod.snd) (same : row fs = row gs) : fs = gs := by
  induction fs generalizing gs with
  | nil => exact (List.map_eq_nil_iff.mp widths.symm).symm
  | cons f fs ih =>
    obtain ⟨g, gs, rfl, width, rest⟩ := List.map_eq_cons_iff.mp widths.symm
    have fitF := fitsF f List.mem_cons_self
    have fitG := fitsG g List.mem_cons_self
    have read : padRight f.2 f.1 = padRight g.2 g.1 → f = g := by
      intro padded
      rw [width] at padded
      exact Prod.ext (eq_of_padRight_eq fitF.solid.no_blank fitG.solid.no_blank padded) width.symm
    cases fs with
    | nil =>
      obtain rfl := List.map_eq_nil_iff.mp rest
      rw [read (by simpa [row] using same)]
    | cons f' fs =>
      obtain ⟨g', gs, rfl, _⟩ := List.map_eq_cons_iff.mp rest
      rw [row_cons_cons, row_cons_cons] at same
      have length : (padRight f.2 f.1).length = (padRight g.2 g.1).length := by
        rw [length_padRight fitF.length_le, length_padRight fitG.length_le, width]
      obtain ⟨here, after⟩ := append_inj length same
      have later := ih (fun h member => fitsF h (List.mem_cons_of_mem f member))
        (fun h member => fitsG h (List.mem_cons_of_mem g member)) rest.symm (append_inj rfl after).2
      rw [read here, later]

theorem row_eq_intercalate (fs : List Field) :
    row fs = " ".intercalate (fs.flatMap fun f => spread f.2 f.1) := by
  have filled : ∀ p ∈ fs.map fun f => spread f.2 f.1, p ≠ [] := by
    intro p member
    obtain ⟨f, _, rfl⟩ := List.mem_map.mp member
    simp [spread]
  have flat : " ".intercalate ((fs.map fun f => spread f.2 f.1).map " ".intercalate) = _ :=
    intercalate_flatten filled
  rw [List.flatMap_def, ← flat, row, List.map_map]
  simp only [Function.comp_def, padRight_eq_intercalate]

theorem length_takeWhile_replicate {α : Type} [BEq α] [LawfulBEq α] {entry : α} {xs : List α}
    (other : xs.head? ≠ some entry) :
    ((List.replicate n entry ++ xs).takeWhile (· == entry)).length = n := by
  rw [List.takeWhile_append_of_pos (by simp)]
  cases xs with
  | nil => simp
  | cons x xs =>
    have differs : x ≠ entry := by simpa using other
    simp [differs]

theorem replicate_append_inj {α : Type} [BEq α] [LawfulBEq α] {entry : α} {xs ys : List α}
    (other : xs.head? ≠ some entry) (other' : ys.head? ≠ some entry)
    (same : List.replicate m entry ++ xs = List.replicate n entry ++ ys) : m = n ∧ xs = ys := by
  have length := length_takeWhile_replicate (n := m) other
  rw [same, length_takeWhile_replicate other'] at length
  obtain rfl := length
  exact ⟨rfl, List.append_cancel_left same⟩

theorem head?_spreads (filled : ∀ h ∈ fs, h.1 ≠ "") :
    (fs.flatMap fun f => spread f.2 f.1).head? ≠ some "" := by
  cases fs with
  | nil => simp
  | cons f fs => simpa [spread] using filled f List.mem_cons_self

theorem eq_of_spreads_eq (fitsF : ∀ h ∈ fs, h.Fits) (fitsG : ∀ h ∈ gs, h.Fits)
    (filledF : ∀ h ∈ fs, h.1 ≠ "") (filledG : ∀ h ∈ gs, h.1 ≠ "")
    (same : (fs.flatMap fun f => spread f.2 f.1) = gs.flatMap fun f => spread f.2 f.1) :
    fs = gs := by
  induction fs generalizing gs with
  | nil =>
    cases gs with
    | nil => rfl
    | cons g gs => cases same
  | cons f fs ih =>
    cases gs with
    | nil => cases same
    | cons g gs =>
      simp only [List.flatMap_cons, spread, List.cons_append] at same
      obtain ⟨text, rest⟩ := List.cons.inj same
      obtain ⟨filledF, laterF⟩ := List.forall_mem_cons.mp filledF
      obtain ⟨filledG, laterG⟩ := List.forall_mem_cons.mp filledG
      obtain ⟨fitF, fitsF⟩ := List.forall_mem_cons.mp fitsF
      obtain ⟨fitG, fitsG⟩ := List.forall_mem_cons.mp fitsG
      -- The blanks of a field end where the next field begins, since that one is not blank.
      obtain ⟨blanks, rest⟩ := replicate_append_inj (head?_spreads laterF) (head?_spreads laterG) rest
      have width : f.2 = g.2 := by
        have boundF := fitF.length_le
        have boundG := fitG.length_le
        rw [text] at boundF blanks
        omega
      rw [Prod.ext text width, ih fitsF fitsG laterF laterG rest]

/-- A row that begins with blanks tells how many they are, and all fields after them with their
widths, if none of these is blank. -/
theorem eq_of_header_eq (fitsF : ∀ h ∈ fs, h.Fits) (fitsG : ∀ h ∈ gs, h.Fits)
    (filledF : ∀ h ∈ fs, h.1 ≠ "") (filledG : ∀ h ∈ gs, h.1 ≠ "")
    (same : row (("", m) :: fs) = row (("", n) :: gs)) : m = n ∧ fs = gs := by
  have free : ∀ k (hs : List Field), (∀ h ∈ hs, h.Fits) →
      ∀ s ∈ (("", k) :: hs).flatMap fun f => spread f.2 f.1, ' ' ∉ s.toList := by
    intro k hs fits s member
    obtain ⟨h, inside, piece⟩ := List.mem_flatMap.mp member
    rcases List.mem_cons.mp inside with rfl | inside
    · exact not_mem_spread (by simp) s piece
    · exact not_mem_spread (fits h inside).solid.no_blank s piece
  rw [row_eq_intercalate, row_eq_intercalate] at same
  have lists := congrArg (splitAt ' ') same
  rw [splitAt_intercalate rfl (free m fs fitsF) (by simp [spread]),
    splitAt_intercalate rfl (free n gs fitsG) (by simp [spread])] at lists
  -- A blank field is taken apart into empty pieces: as many as its width, and one.
  simp only [List.flatMap_cons, spread, List.cons_append, String.length_empty, Nat.sub_zero] at lists
  obtain ⟨blanks, rest⟩ :=
    replicate_append_inj (head?_spreads filledF) (head?_spreads filledG) (List.cons.inj lists).2
  exact ⟨blanks, eq_of_spreads_eq fitsF fitsG filledF filledG rest⟩

end Rows

end TopDown.Text
