import KernelListing.Operand.Printer
import KernelListing.Operand.Reader
import KernelListing.Proofs.Text.Numeral

/-!
# Which texts are integers

An integer is read from its literals, and from little else: a sign too many is overlooked where it
stands directly in front of the digits. Every integer is read back from the text of a constant, but
for the least one, whose digits do not fit a word before they are negated.
-/

namespace KernelListing.Operand

open Text

theorem readInteger_eq_ok_iff {cs : List Char} {v : Int64} :
    readInteger cs = .ok v ↔ integer? cs = some v := by
  unfold readInteger
  cases integer? cs with
  | none => exact iff_of_false nofun nofun
  | some n => simp

/-- The digits of the least integer do not fit a word. -/
theorem integer?_least : integer? (toString Int64.minValue.toInt).toList = none := by decide

theorem integer?_text_iff (v : Int64) (type : DataType) :
    integer? (immediate v type).text.toList = some v ↔ v ≠ Int64.minValue := by
  have htext : (immediate v type).text = toString v.toInt := rfl
  rw [htext]
  constructor
  · rintro h rfl
    rw [integer?_least] at h
    cases h
  · exact integer?_toString_toInt

/-- Which texts are read as an integer, and which integers are read back from their own text. -/
theorem readInteger_iff (cs : List Char) (v : Int64) (type : DataType) :
    (readInteger cs = .ok v ↔ Literal cs v.toInt ∧ v ≠ Int64.minValue ∨ Oversigned cs v) ∧
      (readInteger (immediate v type).text.toList = .ok v ↔ v ≠ Int64.minValue) := by
  rw [readInteger_eq_ok_iff, readInteger_eq_ok_iff]
  exact ⟨integer?_eq_some_iff, integer?_text_iff v type⟩

def doublyNegated : List Char := "--5".toList

def leastText : List Char := "-9223372036854775808".toList

/-- Something is read that is no literal, and the literal of the least integer is not read. -/
theorem not_readInteger_iff_literal :
    ¬ (readInteger doublyNegated = .ok 5 ↔ Literal doublyNegated (Int64.toInt 5)) ∧
      ¬ (readInteger leastText = .ok Int64.minValue ↔ Literal leastText Int64.minValue.toInt) := by
  constructor
  · have hread : readInteger doublyNegated = .ok 5 := by decide
    intro h
    exact Marked.not_minus (literal_cons_minus_iff.1 (h.1 hread))
  · have hread : readInteger leastText ≠ .ok Int64.minValue := by decide
    have hnumeral : Numeral 10 "9223372036854775808".toList (-Int64.minValue.toInt) :=
      natural?_eq_some_iff.1 (by decide)
    intro h
    exact hread (h.2 (literal_cons_minus_iff.2 (.decimal hnumeral)))

end KernelListing.Operand
