import TopDown.Proofs.Text.Reading
import TopDown.Proofs.Tree.Equality
import TopDown.Tree.Quoted

namespace TopDown.Tree

open Text

mutual

def quotedForm : Tree → String
  | node value start stop children =>
    quotedOpening (node value start stop children) ++ quotedTuple children

def quotedTuple : List Tree → String
  | [] => "))"
  | t :: rest => quotedForm t ++ if rest.isEmpty then ",))" else quotedAfter rest

def quotedAfter : List Tree → String
  | [] => "))"
  | t :: rest => ", " ++ quotedForm t ++ quotedAfter rest

end

section Writing

@[simp] def QuotedPiece.whole : QuotedPiece → String
  | text s => s
  | tree t => t.quotedForm

theorem written_quotedChildren (t : Tree) (rest : List Tree) :
    written QuotedPiece.whole (quotedChildren (t :: rest)) ++ "))" =
      t.quotedForm ++ quotedAfter rest := by
  induction rest generalizing t with
  | nil => simp [quotedChildren, quotedAfter]
  | cons u rest ih =>
    simp only [quotedChildren, written_cons, QuotedPiece.whole, String.append_assoc, ih,
      quotedAfter]

theorem quotedForm_eq (t : Tree) : t.quotedForm =
    t.quotedOpening ++
      (written QuotedPiece.whole (quotedChildren t.children) ++ t.quotedClosing) := by
  obtain ⟨value, start, stop, children⟩ := t
  rw [quotedForm]
  congr 1
  match children with
  | [] => simp [quotedTuple, quotedChildren, quotedClosing, Tree.children]
  | [t] => simp [quotedTuple, quotedChildren, quotedClosing, Tree.children]
  | t :: u :: rest =>
    have several := written_quotedChildren t (u :: rest)
    simpa [quotedTuple, quotedClosing, Tree.children] using several.symm

theorem join_writeQuoted (pending : List QuotedPiece) (done : List String) :
    String.join (writeQuoted pending done) =
      String.join done.reverse ++ written QuotedPiece.whole pending := by
  fun_induction writeQuoted pending done with
  | case1 => simp
  | case2 s rest done ih => simp [ih, String.join_append, String.join_cons, String.append_assoc]
  | case3 t rest done ih =>
    simp [ih, quotedForm_eq t, String.join_append, String.join_cons, String.append_assoc]

theorem quotedText_eq (t : Tree) : t.quotedText = t.quotedForm := by
  simp [quotedText, join_writeQuoted]

example : (node "A" 0 1 [node "'" 0 1 []]).quotedText = "Tree(value='A', start=0, end=1, " ++
    "children=(Tree(value=\"'\", start=0, end=1, children=()),))" := by
  decide +kernel

end Writing

section Reading

variable {r s : List Char}

theorem quotedForm_begins (t : Tree) : ∃ rest, t.quotedForm.toList = 'T' :: rest := by
  rw [quotedForm_eq]
  delta quotedOpening
  simp only [String.toList_append, List.append_assoc]
  exact ⟨_, rfl⟩

theorem quotedAfter_begins (t : Tree) (rest : List Tree) :
    ∃ tail, (quotedAfter (t :: rest)).toList = ',' :: ' ' :: tail := by
  simp [quotedAfter]

theorem quotedOpening_legible {value value' : Symbol} {start start' stop stop' : Int}
    {children children' : List Tree}
    (same : (node value start stop children).quotedOpening.toList ++ r =
      (node value' start' stop' children').quotedOpening.toList ++ s) :
    value = value' ∧ start = start' ∧ stop = stop' ∧ r = s := by
  -- Unfolded without its equation, which is slow to make for a text of so many parts.
  delta quotedOpening at same
  have ends : ∀ r, EndsNumber (", end=".toList ++ r) := fun _ => endsNumber_cons rfl _
  have ends' : ∀ r, EndsNumber (", children=(".toList ++ r) := fun _ => endsNumber_cons rfl _
  simp only [Tree.value, Tree.start, Tree.stop, String.toList_append, List.append_assoc,
    List.append_cancel_left_eq] at same
  obtain ⟨rfl, afterValue⟩ := quoted_legible same
  simp only [List.append_cancel_left_eq] at afterValue
  obtain ⟨rfl, afterStart⟩ := eq_of_number (ends _) (ends _) afterValue
  simp only [List.append_cancel_left_eq] at afterStart
  obtain ⟨rfl, afterStop⟩ := eq_of_number (ends' _) (ends' _) afterStart
  simp only [List.append_cancel_left_eq] at afterStop
  exact ⟨rfl, rfl, rfl, afterStop⟩

theorem none_ne_quotedTuple (t : Tree) (rest : List Tree) :
    "))".toList ++ r ≠ (quotedTuple (t :: rest)).toList ++ s := by
  obtain ⟨tail, begins⟩ := quotedForm_begins t
  simp [quotedTuple, begins]

theorem end_ne_quotedAfter (t : Tree) (rest : List Tree) :
    "))".toList ++ r ≠ (quotedAfter (t :: rest)).toList ++ s := by
  obtain ⟨tail, begins⟩ := quotedAfter_begins t rest
  simp [begins]

theorem single_ne_quotedAfter (t : Tree) (rest : List Tree) :
    ",))".toList ++ r ≠ (quotedAfter (t :: rest)).toList ++ s := by
  obtain ⟨tail, begins⟩ := quotedAfter_begins t rest
  simp [begins]

mutual

theorem quotedForm_legible (t u : Tree) {r s : List Char}
    (same : t.quotedForm.toList ++ r = u.quotedForm.toList ++ s) : t = u ∧ r = s := by
  obtain ⟨value, start, stop, children⟩ := t
  obtain ⟨value', start', stop', children'⟩ := u
  simp only [quotedForm, String.toList_append, List.append_assoc] at same
  obtain ⟨rfl, rfl, rfl, afterOpening⟩ := quotedOpening_legible same
  obtain ⟨rfl, afterChildren⟩ := quotedTuple_legible children children' afterOpening
  exact ⟨rfl, afterChildren⟩

theorem quotedTuple_legible (ts us : List Tree) {r s : List Char}
    (same : (quotedTuple ts).toList ++ r = (quotedTuple us).toList ++ s) : ts = us ∧ r = s := by
  cases ts with
  | nil =>
    cases us with
    | nil => exact ⟨rfl, List.append_cancel_left same⟩
    | cons u us => exact (none_ne_quotedTuple u us same).elim
  | cons t ts =>
    cases us with
    | nil => exact (none_ne_quotedTuple t ts same.symm).elim
    | cons u us =>
      simp only [quotedTuple, String.toList_append, List.append_assoc] at same
      obtain ⟨rfl, afterFirst⟩ := quotedForm_legible t u same
      cases ts with
      | nil =>
        cases us with
        | nil => exact ⟨rfl, List.append_cancel_left afterFirst⟩
        | cons v us => exact (single_ne_quotedAfter v us afterFirst).elim
      | cons t' ts =>
        cases us with
        | nil => exact (single_ne_quotedAfter t' ts afterFirst.symm).elim
        | cons v us =>
          obtain ⟨rest, afterRest⟩ := quotedAfter_legible (t' :: ts) (v :: us) afterFirst
          exact ⟨congrArg (t :: ·) rest, afterRest⟩

theorem quotedAfter_legible (ts us : List Tree) {r s : List Char}
    (same : (quotedAfter ts).toList ++ r = (quotedAfter us).toList ++ s) : ts = us ∧ r = s := by
  cases ts with
  | nil =>
    cases us with
    | nil => exact ⟨rfl, List.append_cancel_left same⟩
    | cons u us => exact (end_ne_quotedAfter u us same).elim
  | cons t ts =>
    cases us with
    | nil => exact (end_ne_quotedAfter t ts same.symm).elim
    | cons u us =>
      simp only [quotedAfter, String.toList_append, List.append_assoc,
        List.append_cancel_left_eq] at same
      obtain ⟨rfl, afterFirst⟩ := quotedForm_legible t u same
      obtain ⟨rfl, afterRest⟩ := quotedAfter_legible ts us afterFirst
      exact ⟨rfl, afterRest⟩

end

/-- The quoted form of a tree can be read back: it is that of no other tree. -/
theorem quotedText_eq_iff (t u : Tree) : t.quotedText = u.quotedText ↔ (t == u) = true := by
  rw [beq_iff_eq]
  constructor
  · intro same
    rw [quotedText_eq, quotedText_eq, ← String.toList_inj] at same
    exact (quotedForm_legible t u (congrArg (· ++ []) same)).1
  · intro same
    rw [same]

end Reading

end TopDown.Tree
