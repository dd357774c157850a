import Mathlib.Algebra.GroupWithZero.Nat
import Mathlib.Data.List.Basic

/-!
# Lines of text with decimal fields

Numbers printed in decimal, padded with zeros to a minimal width or not, can be
read back; and a text of lines can be split into its lines again, provided that
no line contains a line break.
-/

namespace AsyncTaskEngine
namespace LineFormat

/-- The line break. -/
def newline : Char :=
  Char.ofNat 10

/-- A number in decimal, as by `%zu`. -/
def decimal (n : Nat) : List Char :=
  Nat.toDigits 10 n

/-- A number in decimal with at least `width` digits, as by `%0` and the width. -/
def zeroPadded (width n : Nat) : List Char :=
  List.replicate (width - (decimal n).length) '0' ++ decimal n

/-- The value of a string of decimal digits. -/
def value (digits : List Char) : Nat :=
  Nat.ofDigitChars 10 digits 0

/-- The lines of a text, each of them ended by a line break. -/
def lines : List Char → List (List Char)
  | [] => []
  | c :: text =>
      if c = newline then [] :: lines text
      else
        match lines text with
        | [] => [[c]]
        | line :: rest => (c :: line) :: rest

/-- The text of the lines. -/
def unlines (ls : List (List Char)) : List Char :=
  ls.flatMap fun line => line ++ [newline]

@[simp] theorem value_decimal (n : Nat) : value (decimal n) = n :=
  Nat.ofDigitChars_ten_toDigits

theorem isDigit_of_mem_decimal {n : Nat} {c : Char} (h : c ∈ decimal n) : c.isDigit = true :=
  Nat.isDigit_of_mem_toDigits (by decide) (by decide) h

@[simp] theorem value_zeroPadded (width n : Nat) : value (zeroPadded width n) = n := by
  rw [value, zeroPadded, Nat.ofDigitChars_append, Nat.ofDigitChars_replicate_zero, Nat.mul_zero]
  exact value_decimal n

theorem isDigit_of_mem_zeroPadded {width n : Nat} {c : Char} (h : c ∈ zeroPadded width n) :
    c.isDigit = true := by
  rcases List.mem_append.mp h with h | h
  · rw [List.eq_of_mem_replicate h]
    rfl
  · exact isDigit_of_mem_decimal h

/-- A number that fits the width is printed with exactly that many digits. -/
theorem length_zeroPadded {width n : Nat} (hw : 0 < width) (hn : n < 10 ^ width) :
    (zeroPadded width n).length = width := by
  have hle : (decimal n).length ≤ width :=
    (Nat.length_toDigits_le_iff (by decide) hw).mpr hn
  rw [zeroPadded, List.length_append, List.length_replicate]
  omega

/-- A line break is no digit. -/
theorem newline_not_mem {digits : List Char} (h : ∀ c ∈ digits, c.isDigit = true) :
    newline ∉ digits := by
  intro hmem
  cases h newline hmem

/-- A field of digits ends before the first other character. -/
theorem takeWhile_digits {digits rest : List Char} {c : Char}
    (h : ∀ d ∈ digits, d.isDigit = true) (hc : c.isDigit = false) :
    (digits ++ c :: rest).takeWhile Char.isDigit = digits := by
  rw [List.takeWhile_append_of_pos h, List.takeWhile_cons_of_neg (by simp [hc]),
    List.append_nil]

/-- What follows a field of digits. -/
theorem dropWhile_digits {digits rest : List Char} {c : Char}
    (h : ∀ d ∈ digits, d.isDigit = true) (hc : c.isDigit = false) :
    (digits ++ c :: rest).dropWhile Char.isDigit = c :: rest := by
  rw [List.dropWhile_append_of_pos h, List.dropWhile_cons_of_neg (by simp [hc])]

theorem lines_line {line : List Char} (h : newline ∉ line) (text : List Char) :
    lines (line ++ newline :: text) = line :: lines text := by
  induction line with
  | nil => simp [lines]
  | cons c line ih =>
      have hc : newline ≠ c := List.ne_of_not_mem_cons h
      have hline : newline ∉ line := fun hmem => h (List.mem_cons_of_mem _ hmem)
      rw [List.cons_append, lines, if_neg (Ne.symm hc), ih hline]

/-- A text of lines can be split into its lines. -/
theorem lines_unlines {ls : List (List Char)} (h : ∀ line ∈ ls, newline ∉ line) :
    lines (unlines ls) = ls := by
  induction ls with
  | nil => rfl
  | cons line ls ih =>
      rw [unlines, List.flatMap_cons, List.append_assoc, List.singleton_append,
        lines_line (h line List.mem_cons_self), ← unlines,
        ih fun l hl => h l (List.mem_cons_of_mem _ hl)]

end LineFormat
end AsyncTaskEngine
