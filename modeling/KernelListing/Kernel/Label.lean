/-!
# Generated labels

Two families of labels that are not in the source. A canonical label is made of the ids of its
kernel and its block. A synthetic label is made of a block's position in the listing, and of a
counter if it is taken: `firstUnused` tries the candidates in turn, and strikes each one that is
taken off the list of used labels, so that the search ends with the list.
-/

namespace KernelListing.Label

/-- A number in decimal, filled up with zeros in front. -/
def padded (width n : Nat) : String := String.ofList ((Nat.toDigits 10 n).leftpad width '0')

/-- The canonical label of a block of a kernel. -/
def canonical (kernelId blockId : Nat) : String :=
  "$BB_" ++ toString kernelId ++ "_" ++ padded 4 blockId

/-- The candidates for a label: the text itself, then the text with a counter behind it. -/
def candidate (base : String) : Nat → String
  | 0 => base
  | n + 1 => base ++ "_" ++ toString (n + 1)

/-- The first candidate from `n` on that is not used. -/
def firstUnused (base : String) (used : List String) (n : Nat) : String :=
  if h : candidate base n ∈ used then
    have : (used.erase (candidate base n)).length < used.length := by
      rw [List.length_erase_of_mem h]
      exact Nat.sub_lt (List.length_pos_of_mem h) Nat.one_pos
    firstUnused base (used.erase (candidate base n)) (n + 1)
  else candidate base n
termination_by used.length

/-- The label of a block without one, at a position in the listing of a kernel that uses some
labels already. -/
def synthetic (used : List String) (position : Nat) : String :=
  firstUnused ("$__Block_" ++ toString position) used 0

end KernelListing.Label
