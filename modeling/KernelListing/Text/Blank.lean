/-!
# Blank characters

The characters that separate tokens, and the two ways a listing throws them away: at the ends
of a piece of text (`trim`) and between the words of a declaration (`words`, in `Text.Split`).
Blanks are the twenty-five characters with the Unicode property `White_Space`, which is more
than the four that `Char.isWhitespace` knows; `isBlank_of_isWhitespace` says that nothing is
lost by the change.
-/

namespace KernelListing.Text

/-- The code points with the property `White_Space`, as closed ranges in ascending order. -/
def blankRanges : List (Nat × Nat) :=
  [(0x0009, 0x000D), (0x0020, 0x0020), (0x0085, 0x0085), (0x00A0, 0x00A0), (0x1680, 0x1680),
   (0x2000, 0x200A), (0x2028, 0x2029), (0x202F, 0x202F), (0x205F, 0x205F), (0x3000, 0x3000)]

def isBlank (c : Char) : Bool :=
  blankRanges.any fun (first, last) => first ≤ c.toNat && c.toNat ≤ last

/-- Every character that core counts as white space is blank. -/
theorem isBlank_of_isWhitespace {c : Char} (h : c.isWhitespace = true) : isBlank c = true := by
  simp only [Char.isWhitespace, Bool.or_eq_true, decide_eq_true_eq] at h
  rcases h with ((rfl | rfl) | rfl) | rfl <;> decide

/-- Drops the characters at the end of a text that satisfy `p`. -/
def dropEndWhile (p : Char → Bool) (cs : List Char) : List Char :=
  (cs.reverse.dropWhile p).reverse

def trimStart (cs : List Char) : List Char := cs.dropWhile isBlank

def trimEnd (cs : List Char) : List Char := dropEndWhile isBlank cs

def trim (cs : List Char) : List Char := trimEnd (trimStart cs)

@[simp] theorem trim_nil : trim [] = [] := rfl

/-- Dropping at the end keeps a prefix of the text. -/
theorem dropEndWhile_isPrefix (p : Char → Bool) (cs : List Char) : dropEndWhile p cs <+: cs := by
  have h := List.dropWhile_suffix (l := cs.reverse) p
  simpa [dropEndWhile] using List.reverse_prefix.2 h

theorem length_trim_le (cs : List Char) : (trim cs).length ≤ cs.length :=
  Nat.le_trans (dropEndWhile_isPrefix isBlank _).length_le
    (List.dropWhile_suffix (l := cs) isBlank).length_le

end KernelListing.Text
