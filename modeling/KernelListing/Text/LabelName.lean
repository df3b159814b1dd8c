/-!
# Label names

Which texts may name a label: letters, digits, underscores, dollar signs and dots, with no dot
in front. The classes of letters and digits are those of ASCII.
-/

namespace KernelListing.Text

/-- Whether a character may stand in the name of a label. -/
def isLabelChar (c : Char) : Bool := c.isAlphanum || c == '_' || c == '$' || c == '.'

/-- Whether a text may name a label. -/
def isLabelName (cs : List Char) : Bool :=
  ! cs.isEmpty && cs.head? != some '.' && cs.all isLabelChar

theorem isLabelName_ne_nil {cs : List Char} (h : isLabelName cs = true) : cs ≠ [] := by
  rintro rfl
  exact absurd h (by decide)

end KernelListing.Text
