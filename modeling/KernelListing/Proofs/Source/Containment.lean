import KernelListing.Proofs.Instruction.Parts
import KernelListing.Proofs.Source.Lines
import KernelListing.Proofs.Text.Scanner

/-!
# Errors stay where they are

Nothing but an open comment reaches from one line of a text to the next, and nothing at all from one
piece of a line to another. So a text without an open comment at its end is read by itself whatever
stands on the lines behind it, and a faulty piece costs its own instruction only: the labels in
front of it stay, and at least one error says that it is missing (`read_contained`).

The lines of a text are not quite those of the text with a newline behind it: a carriage return at
the end of the last line is part of the line in the one and of its end in the other.
`readLines_split` says that it makes no difference.
-/

namespace KernelListing.Source

open Text

/-! ## Line by line -/

/-- Whether a comment is open behind some lines. -/
def openBehind (inComment : Bool) (ls : List (List Char)) : Bool :=
  ls.foldl (fun inComment line => (stripComments inComment line).2) inComment

theorem openBehind_append (inComment : Bool) (ls ls' : List (List Char)) :
    openBehind inComment (ls ++ ls') = openBehind (openBehind inComment ls) ls' :=
  List.foldl_append

theorem readLines_append (inComment : Bool) (ls ls' : List (List Char)) :
    readLines inComment (ls ++ ls') =
      readLines inComment ls ++ readLines (openBehind inComment ls) ls' := by
  induction ls generalizing inComment with
  | nil => rfl
  | cons line ls ih =>
    rw [List.cons_append, readLines, readLines, ih, Reading.append_assoc]
    rfl

/-- The pieces of some lines: what stands between the semicolons, without comments. -/
def linePieces (inComment : Bool) (ls : List (List Char)) : List (List Char) :=
  (stripLines inComment ls).flatMap fun line => (split (· == ';') line.1).map trim

theorem readLines_eq_join (inComment : Bool) (ls : List (List Char)) :
    readLines inComment ls = .join ((linePieces inComment ls).map readPiece) := by
  induction ls generalizing inComment with
  | nil => rfl
  | cons line ls ih =>
    rw [linePieces, stripLines, readInOrder, List.flatMap_cons, List.map_append,
      Reading.join_append, List.map_map, readLines, ih]
    rfl

/-! ## The return in the last line -/

theorem exists_eq_cons_of_append_return {c : Char} (hc : c ≠ '\r') {cs rest : List Char}
    (h : cs ++ ['\r'] = c :: rest) : ∃ rest', cs = c :: rest' := by
  cases cs with
  | nil => exact absurd (List.cons.inj h).1.symm hc
  | cons c' cs => exact ⟨cs, congrArg (· :: cs) (List.cons.inj h).1⟩

/-- A carriage return behind a line is code or part of a comment, and opens or ends none. -/
theorem scan_append_return (inComment : Bool) (line : List Char) :
    ∃ back, (back = [] ∨ back = ['\r']) ∧ scan inComment (line ++ ['\r']) =
      ((scan inComment line).1 ++ back, (scan inComment line).2) := by
  -- A mark consists of two characters, neither of which is a carriage return.
  fun_induction scan inComment line with
  | case1 inComment =>
    cases inComment with
    | true => exact ⟨[], .inl rfl, rfl⟩
    | false => exact ⟨['\r'], .inr rfl, rfl⟩
  | case2 rest => exact ⟨[], .inl rfl, rfl⟩
  | case3 rest ih =>
    obtain ⟨back, hback, hscan⟩ := ih
    refine ⟨back, hback, ?_⟩
    rw [List.cons_append, List.cons_append, scan, hscan]
    rfl
  | case4 c cs hlineEnd hblock ih =>
    obtain ⟨back, hback, hscan⟩ := ih
    refine ⟨back, hback, ?_⟩
    rw [List.cons_append, scan, hscan]
    · rfl
    · intro rest hc hcs
      obtain ⟨rest', hcs'⟩ := exists_eq_cons_of_append_return (by decide) hcs
      exact hlineEnd rest' hc hcs'
    · intro rest hc hcs
      obtain ⟨rest', hcs'⟩ := exists_eq_cons_of_append_return (by decide) hcs
      exact hblock rest' hc hcs'
  | case5 rest ih => exact ih
  | case6 c cs hclose ih =>
    obtain ⟨back, hback, hscan⟩ := ih
    refine ⟨back, hback, ?_⟩
    rw [List.cons_append, scan, hscan]
    intro rest hc hcs
    obtain ⟨rest', hcs'⟩ := exists_eq_cons_of_append_return (by decide) hcs
    exact hclose rest' hc hcs'

/-- A carriage return behind the code of a line is trimmed off its last piece. -/
theorem readCode_append_return (cs : List Char) : readCode (cs ++ ['\r']) = readCode cs := by
  induction hlength : cs.length using Nat.strongRecOn generalizing cs with
  | ind length ih =>
    by_cases hmem : ';' ∈ cs
    · obtain ⟨front, back, rfl, hfront⟩ := List.eq_append_cons_of_mem hmem
      have hlt : back.length < length := by
        rw [← hlength, List.length_append, List.length_cons]
        omega
      rw [List.append_assoc, List.cons_append, readCode_append hfront, readCode_append hfront,
        ih back.length hlt back rfl]
    · have hmem' : ';' ∉ cs ++ ['\r'] := by
        rw [List.mem_append, not_or]
        exact ⟨hmem, by decide⟩
      rw [readCode_of_not_mem hmem, readCode_of_not_mem hmem', trim_append_of_forall (by decide)]

theorem readLines_singleton (inComment : Bool) (line : List Char) :
    readLines inComment [line] = readCode (scan inComment line).1 ∧
      openBehind inComment [line] = (scan inComment line).2 := by
  constructor
  · rw [readLines, readLines, stripComments_eq_scan, Reading.append_empty]
  · rw [openBehind, List.foldl_cons, stripComments_eq_scan]
    rfl

/-- A line is read alike with and without the carriage return that it ends with. -/
theorem readLines_dropReturn (inComment : Bool) (line : List Char) :
    readLines inComment [dropReturn line] = readLines inComment [line] ∧
      openBehind inComment [dropReturn line] = openBehind inComment [line] := by
  by_cases hlast : line.getLast? = some '\r'
  · obtain ⟨front, rfl⟩ := List.getLast?_eq_some_iff.1 hlast
    obtain ⟨back, hback, hscan⟩ := scan_append_return inComment front
    have hcode : readCode ((scan inComment front).1 ++ back) =
        readCode (scan inComment front).1 := by
      rcases hback with rfl | rfl
      · rw [List.append_nil]
      · exact readCode_append_return _
    obtain ⟨hread, hopen⟩ := readLines_singleton inComment front
    obtain ⟨hread', hopen'⟩ := readLines_singleton inComment (front ++ ['\r'])
    rw [dropReturn_append, hread, hopen, hread', hopen', hscan, hcode]
    exact ⟨rfl, rfl⟩
  · rw [dropReturn_of_getLast? hlast]
    exact ⟨rfl, rfl⟩

theorem readLines_empty (inComment : Bool) :
    readLines inComment [[]] = {} ∧ openBehind inComment [[]] = inComment := by
  obtain ⟨hread, hopen⟩ := readLines_singleton inComment []
  rw [hread, hopen, scan, readCode_nil]
  exact ⟨rfl, rfl⟩

theorem readLines_split (inComment : Bool) (cs : List Char) :
    readLines inComment ((split (· == '\n') cs).map dropReturn) = readLines inComment (lines cs) ∧
      openBehind inComment ((split (· == '\n') cs).map dropReturn) =
        openBehind inComment (lines cs) := by
  obtain ⟨front, last, hsplit⟩ : ∃ front last, split (· == '\n') cs = front ++ [last] :=
    ⟨_, _, (List.dropLast_append_getLast (split_ne_nil (· == '\n') cs)).symm⟩
  have hlines : lines cs = front.map dropReturn ++ (if last.isEmpty then [] else [last]) := by
    rw [lines, hsplit, List.dropLast_concat, List.getLast?_concat]
    cases last <;> rfl
  generalize hopen : openBehind inComment (front.map dropReturn) = inComment'
  have hlast : readLines inComment' [dropReturn last] =
        readLines inComment' (if last.isEmpty then [] else [last]) ∧
      openBehind inComment' [dropReturn last] =
        openBehind inComment' (if last.isEmpty then [] else [last]) := by
    cases last with
    | nil => exact readLines_empty inComment'
    | cons c last => exact readLines_dropReturn inComment' (c :: last)
  rw [hlines, hsplit, List.map_append, List.map_singleton, readLines_append, readLines_append,
    openBehind_append, openBehind_append, hopen, hlast.1, hlast.2]
  exact ⟨rfl, rfl⟩

/-- A text that leaves no comment open is read by itself, whatever follows on the next lines. -/
theorem readLines_append_newline {cs : List Char} (h : openBehind false (lines cs) = false)
    (cs' : List Char) : readLines false (lines (cs ++ '\n' :: cs')) =
      readLines false (lines cs) ++ readLines false (lines cs') := by
  obtain ⟨hread, hopen⟩ := readLines_split false cs
  rw [lines_append_cons, readLines_append, hread, hopen, h]

/-! ## Piece by piece -/

/-- A piece is some labels, and what stands behind them. -/
inductive Labelled : List Char → List String → List Char → Prop
  /-- A piece without a label in front. -/
  | body (cs : List Char) (h : ∀ front back, cs = front ++ ':' :: back → ':' ∉ front →
      isLabelName (trim front) = false) : Labelled cs [] cs
  /-- A label, ended by a colon, and the rest of the piece. -/
  | label (front back : List Char) (names : List String) (body : List Char) (h : ':' ∉ front)
      (hname : isLabelName (trim front) = true) (hback : Labelled (trim back) names body) :
      Labelled (front ++ ':' :: back) (String.ofList (trim front) :: names) body

theorem exists_labelled (cs : List Char) : ∃ names body, Labelled cs names body := by
  induction hlength : cs.length using Nat.strongRecOn generalizing cs with
  | ind length ih =>
    by_cases hfront : ∃ front back, cs = front ++ ':' :: back ∧ ':' ∉ front ∧
        isLabelName (trim front) = true
    · obtain ⟨front, back, rfl, hcolon, hname⟩ := hfront
      have hlt : (trim back).length < length := by
        have hle := length_trim_le back
        rw [← hlength, List.length_append, List.length_cons]
        omega
      obtain ⟨names, body, hlabelled⟩ := ih _ hlt _ rfl
      exact ⟨_, body, .label front back names body hcolon hname hlabelled⟩
    · exact ⟨[], cs, .body cs fun front back hcs hcolon =>
        Bool.eq_false_iff.2 fun hname => hfront ⟨front, back, hcs, hcolon, hname⟩⟩

theorem Labelled.readPiece {cs body : List Char} {names : List String}
    (h : Labelled cs names body) :
    Source.readPiece cs = { statements := names.map .label } ++ readBody body := by
  induction h with
  | body cs h =>
    refine readPiece_body fun front back hcut => ?_
    obtain ⟨c, hc, hcs, hfront⟩ := cutAt?_eq_some hcut
    rw [eq_of_beq hc] at hcs
    exact h front back hcs fun hmem => absurd (hfront ':' hmem) (by decide)
  | label front back names body hcolon hname hback ih =>
    have hcut := cutAt?_append_cons (beq_false_of_not_mem hcolon) (beq_self_eq_true ':') back
    rw [readPiece_label hcut hname, ih, ← Reading.append_assoc]
    rfl

/-- What is neither silent nor a directive is an instruction, or at least one error says that it
is none. -/
theorem readBody_cases {body : List Char} (hsilent : body ∉ silentPieces)
    (hdirective : body.head? ≠ some '.') :
    (∃ i, readBody body = .statement (.instruction i)) ∨
      ∃ errors, errors ≠ [] ∧ readBody body = { errors } := by
  rw [readBody, if_neg hsilent, if_neg hdirective]
  cases hread : Instruction.readInstruction body with
  | ok i => exact .inl ⟨i, rfl⟩
  | error errors => exact .inr ⟨errors, Instruction.readInstruction_ne_nil hread, rfl⟩

/-- Faults do not reach beyond their own piece. A text that leaves no comment open is read as
without the lines that follow it. A text is read piece by piece, and a piece gives its labels and
behind them one instruction without an error or at least one error without an instruction. -/
theorem read_contained :
    (∀ s t : String, openBehind false (lines s.toList) = false →
      (read (s ++ "\n" ++ t)).statements = (read s).statements ++ (read t).statements ∧
        (read (s ++ "\n" ++ t)).errors = (read s).errors ++ (read t).errors) ∧
    ∀ text : String,
      read text = .join ((linePieces false (lines text.toList)).map readPiece) ∧
      ∀ piece ∈ linePieces false (lines text.toList),
        (∃ names body, Labelled piece names body) ∧
        ∀ names body, Labelled piece names body → body ∉ silentPieces → body.head? ≠ some '.' →
          (∃ i, readPiece piece = ⟨names.map .label ++ [.instruction i], []⟩) ∨
            ∃ errors, errors ≠ [] ∧ readPiece piece = ⟨names.map .label, errors⟩ := by
  constructor
  · intro s t hopen
    have hread : read (s ++ "\n" ++ t) = read s ++ read t := by
      have htext : (s ++ "\n" ++ t).toList = s.toList ++ '\n' :: t.toList := by simp
      rw [read, htext, readLines_append_newline hopen]
      rfl
    rw [hread]
    exact ⟨rfl, rfl⟩
  · intro text
    refine ⟨readLines_eq_join false _, fun piece _ => ⟨exists_labelled piece, ?_⟩⟩
    intro names body hlabelled hsilent hdirective
    rw [hlabelled.readPiece]
    rcases readBody_cases hsilent hdirective with ⟨i, hbody⟩ | ⟨errors, hne, hbody⟩
    · exact .inl ⟨i, by rw [hbody]; rfl⟩
    · refine .inr ⟨errors, hne, ?_⟩
      rw [hbody]
      ext : 1
      · exact List.append_nil _
      · rfl

/-- The second line has a label, an operation without a name, and an instruction behind both. -/
theorem read_contained_unknown :
    (openBehind false (lines "/* a\nb */ ret".toList) = false ∧
      (read ("/* a\nb */ ret" ++ "\n" ++ "x: frob; exit;")).statements =
        (read "/* a\nb */ ret").statements ++ (read "x: frob; exit;").statements ∧
      (read ("/* a\nb */ ret" ++ "\n" ++ "x: frob; exit;")).errors =
        (read "/* a\nb */ ret").errors ++ (read "x: frob; exit;").errors) ∧
    ['x', ':', ' ', 'f', 'r', 'o', 'b'] ∈ linePieces false (lines "x: frob; exit;".toList) ∧
    Labelled ['x', ':', ' ', 'f', 'r', 'o', 'b'] ["x"] ['f', 'r', 'o', 'b'] ∧
    ((∃ i, readPiece ['x', ':', ' ', 'f', 'r', 'o', 'b'] = ⟨[.label "x", .instruction i], []⟩) ∨
      ∃ errors, errors ≠ [] ∧
        readPiece ['x', ':', ' ', 'f', 'r', 'o', 'b'] = ⟨[.label "x"], errors⟩) := by
  have hopen : openBehind false (lines "/* a\nb */ ret".toList) = false := by
    rw [openBehind, stripComments_eq]
    decide
  have hmem : ['x', ':', ' ', 'f', 'r', 'o', 'b'] ∈
      linePieces false (lines "x: frob; exit;".toList) := by
    rw [linePieces, stripLines, stripComments_eq]
    decide
  have hbody : Labelled ['f', 'r', 'o', 'b'] [] ['f', 'r', 'o', 'b'] := by
    refine .body _ fun front back hcs _ => ?_
    have hcolon : ':' ∈ ['f', 'r', 'o', 'b'] := hcs ▸ by simp
    exact absurd hcolon (by decide)
  have hlabelled : Labelled ['x', ':', ' ', 'f', 'r', 'o', 'b'] ["x"] ['f', 'r', 'o', 'b'] :=
    .label ['x'] [' ', 'f', 'r', 'o', 'b'] [] _ (by decide) (by decide) hbody
  refine ⟨⟨hopen, read_contained.1 _ _ hopen⟩, hmem, hlabelled, ?_⟩
  exact ((read_contained.2 "x: frob; exit;").2 _ hmem).2 ["x"] _ hlabelled (by decide) (by decide)

end KernelListing.Source
