import Mathlib.Algebra.Group.Nat.Defs
import Mathlib.Data.List.Basic
import TopDown.Text

namespace TopDown.Text

variable {α : Type} {write : α → List Char} {r s : List Char}

section Pieces

variable {whole : α → String}

def written (whole : α → String) (pieces : List α) : String := String.join (pieces.map whole)

@[simp] theorem written_nil : written whole [] = "" := rfl

@[simp] theorem written_cons (piece : α) (rest : List α) :
    written whole (piece :: rest) = whole piece ++ written whole rest := by
  simp [written]

@[simp] theorem written_append (ps qs : List α) :
    written whole (ps ++ qs) = written whole ps ++ written whole qs := by
  simp [written]

end Pieces

/-- A text that begins with a value tells which value it is and what follows. -/
def Legible (write : α → List Char) : Prop :=
  ∀ ⦃a b r s⦄, write a ++ r = write b ++ s → a = b ∧ r = s

theorem Legible.of_read {read : List Char → Option (α × List Char)}
    (reads : ∀ a r, read (write a ++ r) = some (a, r)) : Legible write := by
  intro a b r s same
  have pairs : some (a, r) = some (b, s) := by rw [← reads a r, same, reads b s]
  exact Prod.mk.injEq .. ▸ Option.some.inj pairs

theorem flatMap_ne {stop : Char}
    (apart : ∀ a, ∃ first rest, write a = first :: rest ∧ first ≠ stop) (a : α)
    (values : List α) : (a :: values).flatMap write ++ [stop] ++ r ≠ [stop] ++ s := by
  obtain ⟨first, rest, whole, other⟩ := apart a
  intro same
  rw [List.flatMap_cons, whole] at same
  exact other (List.cons.inj same).1

theorem Legible.flatMap (legible : Legible write) {stop : Char}
    (apart : ∀ a, ∃ first rest, write a = first :: rest ∧ first ≠ stop) :
    Legible fun values : List α => values.flatMap write ++ [stop] := by
  intro as bs r s same
  induction as generalizing bs with
  | nil =>
    cases bs with
    | nil => exact ⟨rfl, List.append_cancel_left same⟩
    | cons b bs => exact (flatMap_ne apart b bs same.symm).elim
  | cons a as ih =>
    cases bs with
    | nil => exact (flatMap_ne apart a as same).elim
    | cons b bs =>
      simp only [List.flatMap_cons, List.append_assoc] at same
      obtain ⟨rfl, rest⟩ := legible same
      obtain ⟨rfl, after⟩ := ih (by simpa using rest)
      exact ⟨rfl, after⟩

theorem Legible.ofList {write : List Char → List Char} (legible : Legible write) :
    Legible fun s : String => (String.ofList (write s.toList)).toList := by
  intro a b r s same
  simp only [String.toList_ofList] at same
  obtain ⟨chars, rest⟩ := legible same
  exact ⟨String.toList_inj.mp chars, rest⟩

theorem eq_of_append_mark {mark : Char} {xs ys us vs : List Char} (left : mark ∉ us)
    (right : mark ∉ vs) (same : xs ++ mark :: us = ys ++ mark :: vs) : xs = ys ∧ us = vs := by
  rcases List.append_eq_append_iff.mp same with ⟨as, rfl, split⟩ | ⟨as, rfl, split⟩
  · cases as with
    | nil => simpa using split
    | cons c rest =>
      have inside : mark ∈ us := by simp [(List.cons.inj split).2]
      exact absurd inside left
  · cases as with
    | nil => simpa [eq_comm] using split
    | cons c rest =>
      have inside : mark ∈ vs := by simp [(List.cons.inj split).2]
      exact absurd inside right

section Hexadecimal

def hexDigitValue (c : Char) : Nat := if c.isDigit then c.toNat - 48 else c.toNat - 87

def hexValue (digits : List Char) : Nat := digits.foldl (fun n c => 16 * n + hexDigitValue c) 0

theorem hexDigitValue_digitChar : ∀ d < 16, hexDigitValue (Nat.digitChar d) = d := by decide

theorem length_hexDigits (width n : Nat) : (hexDigits width n).length = width := by
  induction width generalizing n with
  | zero => rfl
  | succ width ih => simp [hexDigits, ih]

theorem hexValue_hexDigits {width n : Nat} (fits : n < 16 ^ width) :
    hexValue (hexDigits width n) = n := by
  induction width generalizing n with
  | zero =>
    have zero : n = 0 := by simpa using fits
    rw [zero]
    rfl
  | succ width ih =>
    have upper : n / 16 < 16 ^ width := by
      rw [Nat.pow_succ] at fits
      omega
    have digit := hexDigitValue_digitChar (n % 16) (Nat.mod_lt n (by decide))
    have value := ih upper
    rw [hexValue] at value ⊢
    rw [hexDigits, List.foldl_append, value, List.foldl_cons, List.foldl_nil, digit]
    omega

end Hexadecimal

section Characters

def readCode (width : Nat) (cs : List Char) : Option (Char × List Char) :=
  some (Char.ofNat (hexValue (cs.take width)), cs.drop width)

def readChar : List Char → Option (Char × List Char)
  | '\\' :: 'x' :: rest => readCode 2 rest
  | '\\' :: 'u' :: rest => readCode 4 rest
  | '\\' :: 'U' :: rest => readCode 8 rest
  | '\\' :: 'n' :: rest => some ('\n', rest)
  | '\\' :: 'r' :: rest => some ('\r', rest)
  | '\\' :: 't' :: rest => some ('\t', rest)
  | '\\' :: 'b' :: rest => some ('\x08', rest)
  | '\\' :: 'f' :: rest => some ('\x0c', rest)
  | '\\' :: c :: rest => some (c, rest)
  | c :: rest => some (c, rest)
  | [] => none

theorem readChar_plain {c : Char} (plain : c ≠ '\\') (r : List Char) :
    readChar (c :: r) = some (c, r) := by
  unfold readChar
  split <;> simp_all

theorem readCode_hexDigits {width : Nat} {c : Char} (fits : c.toNat < 16 ^ width)
    (r : List Char) : readCode width (hexDigits width c.toNat ++ r) = some (c, r) := by
  have front : (hexDigits width c.toNat ++ r).take width = hexDigits width c.toNat :=
    List.take_left' (length_hexDigits ..)
  have back : (hexDigits width c.toNat ++ r).drop width = r :=
    List.drop_left' (length_hexDigits ..)
  rw [readCode, front, back, hexValue_hexDigits fits, Char.ofNat_toNat]

theorem toNat_lt (c : Char) : c.toNat < 0x110000 := by
  have valid := c.valid
  simp only [UInt32.isValidChar, Nat.isValidChar] at valid
  simp only [Char.toNat]
  omega

theorem readChar_jsonChar (c : Char) (r : List Char) :
    readChar (jsonChar c ++ r) = some (c, r) := by
  unfold jsonChar
  split_ifs with plain newline carriage tab back feed control
  · rcases plain with rfl | rfl
    · rfl
    · rfl
  · rw [newline]
    rfl
  · rw [carriage]
    rfl
  · rw [tab]
    rfl
  · rw [back]
    rfl
  · rw [feed]
    rfl
  · exact readCode_hexDigits (by omega) r
  · exact readChar_plain (fun slash => plain (Or.inr slash)) r

theorem readChar_hexEscape (c : Char) (r : List Char) :
    readChar (hexEscape c ++ r) = some (c, r) := by
  have bound := toNat_lt c
  unfold hexEscape
  split_ifs with two four
  · exact readCode_hexDigits (by omega) r
  · exact readCode_hexDigits (by omega) r
  · exact readCode_hexDigits (by omega) r

/-- The quote must not be a letter that has a meaning after a backslash. -/
theorem readChar_quotedChar {quote : Char} (mark : quote = '\'' ∨ quote = '"') (c : Char)
    (r : List Char) : readChar (quotedChar quote c ++ r) = some (c, r) := by
  unfold quotedChar
  split_ifs with escaped newline carriage tab shown
  · rcases escaped with rfl | rfl
    · rfl
    · rcases mark with rfl | rfl
      · rfl
      · rfl
  · rw [newline]
    rfl
  · rw [carriage]
    rfl
  · rw [tab]
    rfl
  · exact readChar_plain (fun slash => escaped (Or.inl slash)) r
  · exact readChar_hexEscape c r

theorem jsonChar_begins (c : Char) :
    ∃ first rest, jsonChar c = first :: rest ∧ first ≠ '"' := by
  unfold jsonChar
  split_ifs with plain
  all_goals try exact ⟨'\\', _, rfl, by decide⟩
  exact ⟨c, [], rfl, fun quote => plain (Or.inl quote)⟩

theorem quotedChar_begins {quote : Char} (other : '\\' ≠ quote) (c : Char) :
    ∃ first rest, quotedChar quote c = first :: rest ∧ first ≠ quote := by
  unfold quotedChar hexEscape
  split_ifs with escaped
  all_goals try exact ⟨'\\', _, rfl, other⟩
  exact ⟨c, [], rfl, fun same => escaped (Or.inr same)⟩

end Characters

section Strings

theorem jsonChars_legible : Legible jsonChars := by
  intro cs ds r s same
  have inner : cs.flatMap jsonChar ++ ['"'] ++ r = ds.flatMap jsonChar ++ ['"'] ++ s :=
    (List.cons.inj same).2
  exact (Legible.of_read readChar_jsonChar).flatMap jsonChar_begins inner

theorem jsonString_legible : Legible fun s : String => (jsonString s).toList :=
  jsonChars_legible.ofList

theorem quoteMark_cases (cs : List Char) : quoteMark cs = '\'' ∨ quoteMark cs = '"' := by
  unfold quoteMark
  split_ifs
  · exact Or.inr rfl
  · exact Or.inl rfl

theorem quotedChars_legible : Legible quotedChars := by
  intro cs ds r s same
  obtain ⟨mark, inner⟩ := List.cons.inj same
  have kind := quoteMark_cases ds
  have other : '\\' ≠ quoteMark ds := by
    rcases kind with single | double
    · rw [single]
      decide
    · rw [double]
      decide
  -- The texts begin with the same mark, so their characters are written in the same way.
  rw [mark] at inner
  exact (Legible.of_read (readChar_quotedChar kind)).flatMap (quotedChar_begins other) inner

theorem quoted_legible : Legible fun s : String => (quoted s).toList :=
  quotedChars_legible.ofList

end Strings

section Numbers

def EndsNumber (r : List Char) : Prop := ∀ c ∈ r.head?, c.isDigit = false

theorem endsNumber_cons {c : Char} (other : c.isDigit = false) (r : List Char) :
    EndsNumber (c :: r) := by
  intro d first
  obtain rfl := Option.some.inj first
  exact other

theorem takeWhile_digits {digits : List Char} (all : ∀ c ∈ digits, c.isDigit = true)
    (ends : EndsNumber r) : (digits ++ r).takeWhile Char.isDigit = digits := by
  rw [List.takeWhile_append_of_pos all]
  cases r with
  | nil => simp
  | cons c rest => simp [ends c rfl]

theorem isDigit_of_mem_toString {n : Nat} {c : Char} (member : c ∈ (toString n).toList) :
    c.isDigit = true := by
  rw [Nat.toString_eq_repr, Nat.toList_repr] at member
  exact Nat.isDigit_of_mem_toDigits (by decide) (by decide) member

theorem eq_of_digits {m n : Nat} (digits : (toString m).toList = (toString n).toList) : m = n := by
  simpa [Nat.toString_eq_repr] using congrArg (fun cs => Nat.ofDigitChars 10 cs 0) digits

theorem eq_of_natural {m n : Nat} (endsR : EndsNumber r) (endsS : EndsNumber s)
    (same : (toString m).toList ++ r = (toString n).toList ++ s) : m = n ∧ r = s := by
  have digits : (toString m).toList = (toString n).toList := by
    rw [← takeWhile_digits (fun _ => isDigit_of_mem_toString) endsR, same,
      takeWhile_digits (fun _ => isDigit_of_mem_toString) endsS]
  rw [digits] at same
  exact ⟨eq_of_digits digits, List.append_cancel_left same⟩

theorem natural_begins (n : Nat) :
    ∃ first rest, (toString n).toList = first :: rest ∧ first.isDigit = true := by
  cases digits : (toString n).toList with
  | nil => simp [Nat.toString_eq_repr, Nat.toList_repr] at digits
  | cons first rest =>
    exact ⟨first, rest, rfl, isDigit_of_mem_toString (by rw [digits]; exact List.mem_cons_self)⟩

theorem natural_ne_minus (m n : Nat) (r s : List Char) :
    (toString m).toList ++ r ≠ '-' :: (toString n).toList ++ s := by
  intro same
  obtain ⟨first, rest, whole, digit⟩ := natural_begins m
  rw [whole] at same
  rw [(List.cons.inj same).1] at digit
  exact absurd digit (by decide)

theorem toList_toString_negSucc (n : Nat) :
    (toString (Int.negSucc n)).toList = '-' :: (toString (n + 1)).toList := by
  have minus : toString (Int.negSucc n) = "-" ++ toString (n + 1) := rfl
  rw [minus, String.toList_append]
  rfl

theorem mem_toList_number {i : Int} {c : Char} (member : c ∈ (toString i).toList) :
    c.isDigit = true ∨ c = '-' := by
  cases i with
  | ofNat n => exact Or.inl (isDigit_of_mem_toString member)
  | negSucc n =>
    rw [toList_toString_negSucc] at member
    exact (List.mem_cons.mp member).symm.imp isDigit_of_mem_toString id

theorem eq_of_number {m n : Int} (endsR : EndsNumber r) (endsS : EndsNumber s)
    (same : (toString m).toList ++ r = (toString n).toList ++ s) : m = n ∧ r = s := by
  cases m with
  | ofNat j =>
    cases n with
    | ofNat k =>
      obtain ⟨rfl, rest⟩ := eq_of_natural endsR endsS same
      exact ⟨rfl, rest⟩
    | negSucc k =>
      rw [toList_toString_negSucc] at same
      exact (natural_ne_minus j (k + 1) r s same).elim
  | negSucc j =>
    rw [toList_toString_negSucc] at same
    cases n with
    | ofNat k => exact (natural_ne_minus k (j + 1) s r same.symm).elim
    | negSucc k =>
      rw [toList_toString_negSucc] at same
      obtain ⟨next, rest⟩ := eq_of_natural endsR endsS (List.cons.inj same).2
      exact ⟨congrArg Int.negSucc (Nat.succ.inj next), rest⟩

end Numbers

end TopDown.Text
