import KernelListing.Text.Comment

/-!
# Comments, one character at a time

`stripComments` searches a line for the marks of comments and cuts it there. `scan` is a machine
with two states, in code and in a comment, that never looks further than the next character. They
leave the same text and the same comment open (`stripComments_eq_scan`), also on lines that hand the
state on (`stripLines_eq_scanLines`), and wherever marks overlap or hide each other.

`beforeComment_eq_search` and `afterComment?_eq_search` say where the search cuts a line: at the
first place where a mark stands, and of the two marks that open a comment at the one in front.
-/

namespace KernelListing.Text

/-! ## Searching -/

/-- The first place in a text where a mark starts. -/
def indexOf? (mark : List Char) : List Char → Option Nat
  | [] => none
  | c :: cs => if mark <+: c :: cs then some 0 else (indexOf? mark cs).map (· + 1)

theorem indexOf?_here {mark cs : List Char} {c : Char} (h : mark <+: c :: cs) :
    indexOf? mark (c :: cs) = some 0 := if_pos h

theorem indexOf?_behind {mark cs : List Char} {c : Char} (h : ¬ mark <+: c :: cs) :
    indexOf? mark (c :: cs) = (indexOf? mark cs).map (· + 1) := if_neg h

/-- A mark of two characters stands in front of a text that starts with them. -/
theorem pair_prefix_cons {m m' c : Char} {cs : List Char} :
    [m, m'] <+: c :: cs ↔ c = m ∧ ∃ rest, cs = m' :: rest := by
  rw [List.cons_prefix_cons, eq_comm]
  refine and_congr_right fun _ => exists_congr fun rest => ?_
  exact eq_comm

/-- A line is cut at the first mark that opens a comment. -/
theorem beforeComment_eq_search (cs : List Char) :
    beforeComment cs =
      match indexOf? ['/', '*'] cs, indexOf? ['/', '/'] cs with
      | some block, some lineEnd =>
        if lineEnd < block then (cs.take lineEnd, .toLineEnd)
        else (cs.take block, .block (cs.drop (block + 2)))
      | none, some lineEnd => (cs.take lineEnd, .toLineEnd)
      | some block, none => (cs.take block, .block (cs.drop (block + 2)))
      | none, none => (cs, .none) := by
  fun_induction beforeComment cs with
  | case1 => rfl
  | case2 rest =>
    have hblock : ¬ ['/', '*'] <+: '/' :: '/' :: rest := by simp
    rw [indexOf?_here (pair_prefix_cons.2 ⟨rfl, rest, rfl⟩), indexOf?_behind hblock]
    cases indexOf? ['/', '*'] ('/' :: rest) with
    | none => rfl
    | some n => simp
  | case3 rest =>
    rw [indexOf?_here (pair_prefix_cons.2 ⟨rfl, rest, rfl⟩)]
    cases indexOf? ['/', '/'] ('/' :: '*' :: rest) with
    | none => rfl
    | some n => simp
  | case4 c cs hlineEnd hblock ih =>
    have hlineEnd' : ¬ ['/', '/'] <+: c :: cs := by
      intro h
      obtain ⟨hc, rest, hcs⟩ := pair_prefix_cons.1 h
      exact hlineEnd rest hc hcs
    have hblock' : ¬ ['/', '*'] <+: c :: cs := by
      intro h
      obtain ⟨hc, rest, hcs⟩ := pair_prefix_cons.1 h
      exact hblock rest hc hcs
    -- Both places are one further than in the rest of the line, so their order is the same.
    rw [ih, indexOf?_behind hlineEnd', indexOf?_behind hblock']
    cases indexOf? ['/', '*'] cs with
    | none => cases indexOf? ['/', '/'] cs <;> rfl
    | some block =>
      cases indexOf? ['/', '/'] cs with
      | none => rfl
      | some lineEnd =>
        simp only [Option.map_some, Nat.add_lt_add_iff_right]
        split <;> rfl

/-- A comment ends at the first mark that closes one. -/
theorem afterComment?_eq_search (cs : List Char) :
    afterComment? cs = (indexOf? ['*', '/'] cs).map fun n => cs.drop (n + 2) := by
  fun_induction afterComment? cs with
  | case1 => rfl
  | case2 rest => rw [indexOf?_here (pair_prefix_cons.2 ⟨rfl, rest, rfl⟩)]; rfl
  | case3 c cs hclose ih =>
    have hclose' : ¬ ['*', '/'] <+: c :: cs := by
      intro h
      obtain ⟨hc, rest, hcs⟩ := pair_prefix_cons.1 h
      exact hclose rest hc hcs
    rw [ih, indexOf?_behind hclose', Option.map_map]
    rfl

/-! ## Scanning -/

/-- Reads a line one character at a time, in code or in a comment. Code is kept. `//` hides the
rest of the line, `/*` leaves a space and starts a comment, and `*/` ends it. The end of the line
changes nothing. -/
def scan : Bool → List Char → List Char × Bool
  | inComment, [] => ([], inComment)
  | false, '/' :: '/' :: _ => ([], false)
  | false, '/' :: '*' :: cs => (' ' :: (scan true cs).1, (scan true cs).2)
  | false, c :: cs => (c :: (scan false cs).1, (scan false cs).2)
  | true, '*' :: '/' :: cs => scan false cs
  | true, _ :: cs => scan true cs

/-- Code is copied up to the first comment. -/
theorem scan_false (cs : List Char) :
    scan false cs =
      match beforeComment cs with
      | (code, .none) => (code, false)
      | (code, .toLineEnd) => (code, false)
      | (code, .block rest) => (code ++ ' ' :: (scan true rest).1, (scan true rest).2) := by
  fun_induction beforeComment cs with
  | case1 => rfl
  | case2 rest => rfl
  | case3 rest => rfl
  | case4 c cs hlineEnd hblock ih =>
    rw [scan, ih]
    · obtain ⟨code, opening⟩ := beforeComment cs
      cases opening <;> rfl
    · exact fun rest hc hcs => hlineEnd rest hc hcs
    · exact fun rest hc hcs => hblock rest hc hcs

theorem scan_true (cs : List Char) :
    scan true cs =
      match afterComment? cs with
      | none => ([], true)
      | some rest => scan false rest := by
  fun_induction afterComment? cs with
  | case1 => rfl
  | case2 rest => rfl
  | case3 c cs hclose ih =>
    rw [scan, ih]
    exact fun rest hc hcs => hclose rest hc hcs

/-- Searching a line for comments gives what scanning it gives. -/
theorem stripComments_eq_scan (inComment : Bool) (line : List Char) :
    stripComments inComment line = scan inComment line := by
  -- The induction is on the text that is left behind the next mark.
  induction hlength : line.length using Nat.strongRecOn generalizing inComment line with
  | ind length ih =>
    cases inComment with
    | true =>
      rw [scan_true]
      cases hafter : afterComment? line with
      | none => exact stripComments_inside_none hafter
      | some rest =>
        rw [stripComments_inside_some hafter]
        exact ih rest.length (hlength ▸ length_lt_of_afterComment hafter) false rest rfl
    | false =>
      rw [scan_false]
      cases hbefore : beforeComment line with
      | mk code opening =>
        cases opening with
        | none => exact stripComments_none hbefore
        | toLineEnd => exact stripComments_toLineEnd hbefore
        | block rest =>
          have hrest := ih rest.length (hlength ▸ length_lt_of_block hbefore) true rest rfl
          rw [stripComments_block hbefore, hrest]

theorem stripComments_eq : stripComments = scan :=
  funext fun inComment => funext fun line => stripComments_eq_scan inComment line

/-! ## Lines -/

/-- Reads lines in their order. Each is given whether a comment is open where it starts, and hands
on whether one is open where it ends. -/
def readInOrder (read : Bool → List Char → List Char × Bool) (inComment : Bool) :
    List (List Char) → List (List Char × Bool)
  | [] => []
  | line :: ls => read inComment line :: readInOrder read (read inComment line).2 ls

/-- The code of some lines, each with whether a comment is open behind it. -/
def stripLines : Bool → List (List Char) → List (List Char × Bool) := readInOrder stripComments

def scanLines : Bool → List (List Char) → List (List Char × Bool) := readInOrder scan

/-- Line by line, taking comments out gives the text of the scanner and leaves it in its state. -/
theorem stripLines_eq_scanLines (inComment : Bool) (ls : List (List Char)) :
    stripLines inComment ls = scanLines inComment ls := by
  rw [stripLines, scanLines, stripComments_eq]

/-- The slash of `/*/` does not end the comment that it opens, and `//*` opens none. -/
example : scanLines false [['a', '/', '*', '/', 'b'], ['*', '/', 'c', '/', '/', '*', 'd'], ['e']] =
    [(['a', ' '], true), (['c'], false), (['e'], false)] := by decide

end KernelListing.Text
