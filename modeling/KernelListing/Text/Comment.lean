/-!
# Comments

A line loses its comments before it is read. `//` hides the rest of the line. `/*` hides
everything up to the next `*/`, on this line or on a later one, and leaves one space so that
the tokens around the comment stay apart. What a line hands to the next one is only whether a
comment is still open.

A line is taken apart opening by opening: `beforeComment` runs to the first place where a
comment starts, `afterComment?` to the first place where one ends.
-/

namespace KernelListing.Text

/-- What stands behind the code at the front of a line. -/
inductive Opening where
  /-- The line ends. -/
  | none
  /-- A comment to the end of the line. -/
  | toLineEnd
  /-- A comment with its own end, and the text behind its opening mark. -/
  | block (rest : List Char)
  deriving DecidableEq, Repr

/-- The text in front of the first comment of a line, and how that comment opens. -/
def beforeComment : List Char → List Char × Opening
  | [] => ([], .none)
  | '/' :: '/' :: _ => ([], .toLineEnd)
  | '/' :: '*' :: rest => ([], .block rest)
  | c :: cs => ((c :: (beforeComment cs).1), (beforeComment cs).2)

/-- The text behind the first `*/`. -/
def afterComment? : List Char → Option (List Char)
  | [] => none
  | '*' :: '/' :: rest => some rest
  | _ :: cs => afterComment? cs

theorem length_lt_of_block {cs before rest : List Char}
    (h : beforeComment cs = (before, .block rest)) : rest.length < cs.length := by
  fun_induction beforeComment cs generalizing before with
  | case1 => simp at h
  | case2 => simp at h
  | case3 r =>
    obtain ⟨-, h⟩ := Prod.mk.inj h
    cases h
    simp only [List.length_cons]
    omega
  | case4 c cs _ _ ih =>
    obtain ⟨-, h⟩ := Prod.mk.inj h
    have := ih (Prod.ext rfl h)
    simp only [List.length_cons]
    omega

theorem length_lt_of_afterComment {cs rest : List Char}
    (h : afterComment? cs = some rest) : rest.length < cs.length := by
  fun_induction afterComment? cs with
  | case1 => simp at h
  | case2 r =>
    cases h
    simp only [List.length_cons]
    omega
  | case3 c cs _ ih =>
    have := ih h
    simp only [List.length_cons]
    omega

/-- The code of a line, given whether a comment is open where it starts, and whether one is
open where it ends. -/
def stripComments (inComment : Bool) (line : List Char) : List Char × Bool :=
  if inComment then
    match h : afterComment? line with
    | none => ([], true)
    | some rest =>
      have := length_lt_of_afterComment h
      stripComments false rest
  else
    match h : beforeComment line with
    | (code, .none) => (code, false)
    | (code, .toLineEnd) => (code, false)
    | (code, .block rest) =>
      have := length_lt_of_block h
      let behind := stripComments true rest
      (code ++ ' ' :: behind.1, behind.2)
termination_by line.length

theorem stripComments_inside_none {line : List Char} (h : afterComment? line = none) :
    stripComments true line = ([], true) := by
  rw [stripComments]
  simp only [if_true]
  split
  · rfl
  · simp_all

theorem stripComments_inside_some {line rest : List Char} (h : afterComment? line = some rest) :
    stripComments true line = stripComments false rest := by
  rw [stripComments]
  simp only [if_true]
  split
  · simp_all
  · simp_all

theorem stripComments_none {line code : List Char} (h : beforeComment line = (code, .none)) :
    stripComments false line = (code, false) := by
  rw [stripComments]
  simp only [Bool.false_eq_true, if_false]
  split <;> simp_all

theorem stripComments_toLineEnd {line code : List Char}
    (h : beforeComment line = (code, .toLineEnd)) : stripComments false line = (code, false) := by
  rw [stripComments]
  simp only [Bool.false_eq_true, if_false]
  split <;> simp_all

theorem stripComments_block {line code rest : List Char}
    (h : beforeComment line = (code, .block rest)) :
    stripComments false line =
      (code ++ ' ' :: (stripComments true rest).1, (stripComments true rest).2) := by
  rw [stripComments]
  simp only [Bool.false_eq_true, if_false]
  split <;> simp_all

end KernelListing.Text
