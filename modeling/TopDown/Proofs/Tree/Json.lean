import TopDown.Proofs.JsonValue
import TopDown.Proofs.Text.Reading
import TopDown.Proofs.Tree.Equality

namespace TopDown.Tree

open Text JsonValue

variable {indent : Option Int} {level : Nat}

mutual

def asJson : Tree → JsonValue
  | node value start stop children =>
    .object [("value", .string value), ("start", .number start), ("end", .number stop),
      ("children", .array (asJsonEach children))]

def asJsonEach : List Tree → List JsonValue
  | [] => []
  | t :: rest => asJson t :: asJsonEach rest

end

theorem asJsonEach_eq_map (ts : List Tree) : asJsonEach ts = ts.map asJson := by
  induction ts with
  | nil => rfl
  | cons t rest ih => rw [asJsonEach, ih, List.map_cons]

section Conversion

theorem asJson_eq_jsonNode (t : Tree) : t.asJson = t.jsonNode (t.children.map asJson) := by
  cases t
  rw [asJson, asJsonEach_eq_map]
  rfl

/-- The values of the trees that are pending come to stand in front of those that are built. -/
theorem assemble_walkBack (pending visited : List Tree) (built : List JsonValue) :
    assemble (walkBack pending visited) built =
      assemble visited (pending.map asJson ++ built) := by
  fun_induction walkBack pending visited generalizing built with
  | case1 => rfl
  | case2 value start stop children rest visited ih =>
    have count : (children.reverse.map asJson).length = children.length := by simp
    rw [ih, List.reverseAux_eq, List.map_append, List.append_assoc]
    simp only [assemble, Tree.children]
    rw [List.take_left' count, List.drop_left' count, List.map_cons, asJson_eq_jsonNode]
    simp [Tree.children]

theorem toJson?_eq (t : Tree) : t.toJson? = some t.asJson := by
  simp [toJson?, assemble_walkBack, assemble]

end Conversion

section Writing

theorem newline_eq (indent : Option Int) (level : Nat) :
    newline indent level = lineBreak indent level := by
  cases indent with
  | none => rfl
  | some n =>
    have width : (n * level).toNat = level * n.toNat := by
      cases n with
      | ofNat k =>
        rw [Int.ofNat_eq_natCast, ← Int.natCast_mul, Int.toNat_natCast, Int.toNat_natCast,
          Nat.mul_comm]
      | negSucc k =>
        rw [Int.toNat_negSucc, Nat.mul_zero, Int.toNat_eq_zero]
        exact Int.mul_nonpos_of_nonpos_of_nonneg (by omega) (by omega)
    rw [newline, lineBreak, width]

theorem comma_eq (indent : Option Int) : comma indent = separator indent := by
  cases indent with
  | none => rfl
  | some n => rfl

@[simp] def JsonPiece.whole (indent : Option Int) : JsonPiece → String
  | text s => s
  | tree t level => t.asJson.text indent level

theorem written_jsonItems (t : Tree) (rest : List Tree) :
    written (JsonPiece.whole indent)
        (jsonItems (separator indent ++ lineBreak indent level) level (t :: rest)) =
      t.asJson.text indent level ++ itemsText indent level (asJsonEach rest) := by
  induction rest generalizing t with
  | nil => simp [jsonItems, asJsonEach, itemsText]
  | cons u rest ih =>
    simp only [jsonItems, written_cons, JsonPiece.whole, ih, asJsonEach, itemsText,
      String.append_assoc]

theorem append_joined {a b joined : String} (whole : a ++ b = joined) (s : String) :
    a ++ (b ++ s) = joined ++ s := by
  rw [← String.append_assoc, whole]

theorem text_asJson (t : Tree) : t.asJson.text indent level =
    jsonOpening indent level t ++
      written (JsonPiece.whole indent) (jsonChildren indent level t) := by
  obtain ⟨value, start, stop, children⟩ := t
  delta jsonOpening
  have valueKey := @append_joined (jsonString "value") ": " "\"value\": " (by decide)
  have startKey := @append_joined (jsonString "start") ": " "\"start\": " (by decide)
  have stopKey := @append_joined (jsonString "end") ": " "\"end\": " (by decide)
  have childrenKey := @append_joined (jsonString "children") ": " "\"children\": " (by decide)
  cases children with
  | nil =>
    have none := @append_joined "\"children\": " "[]" "\"children\": []" (by decide)
    simp only [asJson, text, fieldsText, jsonChildren, asJsonEach, Tree.value,
      Tree.start, Tree.stop, Tree.children, comma_eq, newline_eq, String.append_assoc, valueKey,
      startKey, stopKey, childrenKey, none, List.isEmpty_nil, if_true, written_nil,
      String.append_empty]
  | cons t rest =>
    have some := @append_joined "\"children\": " "[" "\"children\": [" (by decide)
    simp only [asJson, text, fieldsText, jsonChildren, asJsonEach, Tree.value,
      Tree.start, Tree.stop, Tree.children, comma_eq, newline_eq, String.append_assoc, valueKey,
      startKey, stopKey, childrenKey, some, List.isEmpty_cons, Bool.false_eq_true, if_false,
      written_append, written_jsonItems, written_cons, JsonPiece.whole, jsonClosing, written_nil,
      String.append_empty]

theorem join_writeJson (pending : List JsonPiece) (done : List String) :
    String.join (writeJson indent pending done) =
      String.join done.reverse ++ written (JsonPiece.whole indent) pending := by
  fun_induction writeJson indent pending done with
  | case1 => simp
  | case2 s rest done ih => simp [ih, String.join_append, String.join_cons, String.append_assoc]
  | case3 t level rest done ih =>
    simp [ih, text_asJson, String.join_append, String.join_cons, String.append_assoc]

theorem jsonText_eq_text (t : Tree) : t.jsonText indent = t.asJson.text indent 0 := by
  simp [jsonText, join_writeJson]

end Writing

/-- A tree is converted by recursion, and its text is that of the JSON value: items stand on a line,
or on lines of their own with the indent of their level. -/
theorem json_recursive (t : Tree) :
    t.toJson? = some t.asJson ∧ ∀ indent, t.jsonText indent = t.asJson.text indent 0 :=
  ⟨toJson?_eq t, fun _ => jsonText_eq_text t⟩

example : (node "a" 0 1 []).jsonText (some 1) =
    "\x7b\n \"value\": \"a\",\n \"start\": 0,\n \"end\": 1,\n \"children\": []\n\x7d" := by
  decide +kernel

section Reading

variable {r s : List Char}

theorem separator_begins (indent : Option Int) :
    ∃ rest, (separator indent).toList = ',' :: rest := by
  cases indent with
  | none => simp [separator]
  | some n => simp [separator]

theorem endsNumber_separator (indent : Option Int) (r : List Char) :
    EndsNumber ((separator indent).toList ++ r) := by
  obtain ⟨rest, begins⟩ := separator_begins indent
  rw [begins]
  exact endsNumber_cons rfl _

/-- A line break hides no mark, so what comes after it can be told from a mark. -/
theorem lineBreak_append_ne {c d : Char} (visible : c ≠ '\n') (other : c ≠ d) :
    (lineBreak indent level).toList ++ d :: r ≠ c :: s := by
  cases indent with
  | none => simpa [lineBreak] using fun same => absurd same.symm other
  | some n => simpa [lineBreak] using fun same => absurd same.symm visible

theorem text_asJson_begins (indent : Option Int) (level : Nat) (t : Tree) :
    ∃ rest, (t.asJson.text indent level).toList = '\x7b' :: rest := by
  cases t
  simp [asJson, text]

theorem nil_ne_arrayText (t : Tree) (ts : List Tree) :
    ((array (asJsonEach [])).text indent level).toList ++ r ≠
      ((array (asJsonEach (t :: ts))).text indent level).toList ++ s := by
  intro same
  obtain ⟨rest, begins⟩ := text_asJson_begins indent (level + 1) t
  simp only [asJsonEach, text, String.toList_append, begins, List.append_assoc] at same
  have inner := (List.cons.inj same).2
  exact lineBreak_append_ne (by decide) (by decide) inner.symm

theorem close_ne_itemsText {outer : Nat} (t : Tree) (ts : List Tree) :
    (itemsText indent level (asJsonEach [])).toList ++
        ((lineBreak indent outer).toList ++ ("]".toList ++ r)) ≠
      (itemsText indent level (asJsonEach (t :: ts))).toList ++ s := by
  intro same
  obtain ⟨rest, begins⟩ := separator_begins indent
  simp only [asJsonEach, itemsText, String.toList_append, begins, List.append_assoc] at same
  exact lineBreak_append_ne (by decide) (by decide) same

mutual

theorem text_asJson_legible (level : Nat) (t u : Tree) {r s : List Char}
    (same : (t.asJson.text indent level).toList ++ r =
      (u.asJson.text indent level).toList ++ s) : t = u ∧ r = s := by
  obtain ⟨value, start, stop, children⟩ := t
  obtain ⟨value', start', stop', children'⟩ := u
  have ends := endsNumber_separator indent
  -- Each field is read off the front, and what follows it is again the same in both texts.
  simp only [asJson, text, fieldsText, String.toList_append, List.append_assoc,
    List.append_cancel_left_eq] at same
  obtain ⟨rfl, afterValue⟩ := jsonString_legible same
  simp only [List.append_cancel_left_eq] at afterValue
  obtain ⟨rfl, afterStart⟩ := eq_of_number (ends _) (ends _) afterValue
  simp only [List.append_cancel_left_eq] at afterStart
  obtain ⟨rfl, afterStop⟩ := eq_of_number (ends _) (ends _) afterStart
  simp only [List.append_cancel_left_eq] at afterStop
  obtain ⟨rfl, afterChildren⟩ := arrayText_legible (level + 1) children children' afterStop
  simp only [List.append_cancel_left_eq] at afterChildren
  exact ⟨rfl, afterChildren⟩

theorem arrayText_legible (level : Nat) (ts us : List Tree) {r s : List Char}
    (same : ((array (asJsonEach ts)).text indent level).toList ++ r =
      ((array (asJsonEach us)).text indent level).toList ++ s) : ts = us ∧ r = s := by
  cases ts with
  | nil =>
    cases us with
    | nil => exact ⟨rfl, List.append_cancel_left same⟩
    | cons u us => exact (nil_ne_arrayText u us same).elim
  | cons t ts =>
    cases us with
    | nil => exact (nil_ne_arrayText t ts same.symm).elim
    | cons u us =>
      simp only [asJsonEach, text, String.toList_append, List.append_assoc,
        List.append_cancel_left_eq] at same
      obtain ⟨rfl, afterFirst⟩ := text_asJson_legible (level + 1) t u same
      obtain ⟨rfl, afterItems⟩ := itemsText_legible (level + 1) ts us afterFirst
      exact ⟨rfl, afterItems⟩

theorem itemsText_legible (level : Nat) (ts us : List Tree) {outer : Nat} {r s : List Char}
    (same : (itemsText indent level (asJsonEach ts)).toList ++
        ((lineBreak indent outer).toList ++ ("]".toList ++ r)) =
      (itemsText indent level (asJsonEach us)).toList ++
        ((lineBreak indent outer).toList ++ ("]".toList ++ s))) : ts = us ∧ r = s := by
  cases ts with
  | nil =>
    cases us with
    | nil =>
      simp only [List.append_cancel_left_eq] at same
      exact ⟨rfl, same⟩
    | cons u us => exact (close_ne_itemsText u us same).elim
  | cons t ts =>
    cases us with
    | nil => exact (close_ne_itemsText t ts same.symm).elim
    | cons u us =>
      simp only [asJsonEach, itemsText, String.toList_append, List.append_assoc,
        List.append_cancel_left_eq] at same
      obtain ⟨rfl, afterFirst⟩ := text_asJson_legible level t u same
      obtain ⟨rfl, afterItems⟩ := itemsText_legible level ts us afterFirst
      exact ⟨rfl, afterItems⟩

end

/-- The text of a tree can be read back: it is the text of no other tree. -/
theorem jsonText_eq_iff (indent : Option Int) (t u : Tree) :
    t.jsonText indent = u.jsonText indent ↔ (t == u) = true := by
  rw [beq_iff_eq]
  constructor
  · intro same
    rw [jsonText_eq_text, jsonText_eq_text, ← String.toList_inj] at same
    exact (text_asJson_legible 0 t u (congrArg (· ++ []) same)).1
  · intro same
    rw [same]

end Reading

end TopDown.Tree
