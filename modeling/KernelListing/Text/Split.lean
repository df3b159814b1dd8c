import KernelListing.Text.Blank

/-!
# Cutting text into pieces

`split` cuts at every separator and always yields one piece more than there are separators;
`split_cons` is the equation that proofs about it follow. `words` keeps the non-empty pieces
between blanks; `cutAt` and `cutAt?` cut once, at the first separator.
-/

namespace KernelListing.Text

/-- Puts a character in front of the first of some pieces. -/
def consFirst (c : Char) : List (List Char) → List (List Char)
  | [] => [[c]]
  | piece :: pieces => (c :: piece) :: pieces

/-- The pieces of a text between its separators, empty pieces included. -/
def split (isSeparator : Char → Bool) (cs : List Char) : List (List Char) :=
  cs.foldr (fun c pieces => if isSeparator c then [] :: pieces else consFirst c pieces) [[]]

@[simp] theorem split_nil (isSeparator : Char → Bool) : split isSeparator [] = [[]] := rfl

theorem split_cons (isSeparator : Char → Bool) (c : Char) (cs : List Char) :
    split isSeparator (c :: cs) =
      if isSeparator c then [] :: split isSeparator cs else consFirst c (split isSeparator cs) :=
  rfl

/-- The words of a text: its non-empty pieces between blanks. -/
def words (cs : List Char) : List (List Char) :=
  (split isBlank cs).filter (! ·.isEmpty)

/-- The text before the first separator and the text behind it. Without a separator the
second part is empty. -/
def cutAt (isSeparator : Char → Bool) (cs : List Char) : List Char × List Char :=
  (cs.takeWhile (! isSeparator ·), (cs.dropWhile (! isSeparator ·)).tail)

/-- The two parts of `cutAt`, or `none` where there is no separator. -/
def cutAt? (isSeparator : Char → Bool) (cs : List Char) : Option (List Char × List Char) :=
  if cs.any isSeparator then some (cutAt isSeparator cs) else none

/-- Behind a separator less text is left than before. -/
theorem length_cutAt_snd_lt {isSeparator : Char → Bool} {cs before after : List Char}
    (h : cutAt? isSeparator cs = some (before, after)) : after.length < cs.length := by
  simp only [cutAt?, cutAt] at h
  split at h
  · next hany =>
    obtain ⟨rfl, rfl⟩ := Prod.mk.inj (Option.some.inj h)
    rcases cs with _ | ⟨c, cs⟩
    · simp at hany
    · have := (List.dropWhile_suffix (l := c :: cs) (! isSeparator ·)).length_le
      simp only [List.length_tail, List.length_cons] at this ⊢
      omega
  · exact absurd h (by simp)

end KernelListing.Text
