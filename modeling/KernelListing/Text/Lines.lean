import KernelListing.Text.Split

/-!
# Lines

Reading a text as lines and writing lines as a text. Reading also takes a carriage return for
part of the line's end, which writing never puts there.
-/

namespace KernelListing.Text

/-- Drops the carriage return that a line ends with, if there is one. -/
def dropReturn (line : List Char) : List Char :=
  (['\r'].isSuffixOf? line).getD line

/-- The lines of a text. A newline ends a line, together with a carriage return right before
it; what stands after the last newline is a line of its own unless it is empty. -/
def lines (cs : List Char) : List (List Char) :=
  let pieces := split (· == '\n') cs
  pieces.dropLast.map dropReturn ++ (pieces.getLast?.filter (! ·.isEmpty)).toList

/-- The text of some lines, each with the newline that ends it. -/
def ofLines (lines : List String) : String := String.join (lines.map (· ++ "\n"))

@[simp] theorem ofLines_nil : ofLines [] = "" := rfl

theorem toList_ofLines (lines : List String) :
    (ofLines lines).toList = lines.flatMap fun line => line.toList ++ ['\n'] := by
  simp [ofLines, String.toList_join, List.flatMap_map]

end KernelListing.Text
