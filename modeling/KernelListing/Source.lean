import KernelListing.Instruction.Reader
import KernelListing.Statement.Declaration
import KernelListing.Text.Comment
import KernelListing.Text.Lines

/-!
# Reading a listing

A listing is read line by line, each line without its comments and cut at its semicolons. A
piece starts with any number of labels; behind them stands a directive, an instruction, or
nothing of interest: a brace around the body, or the parenthesis that closes a parameter list
over several lines. Nothing but an open comment reaches from one line to the next.
-/

namespace KernelListing.Source

open Text

/-- The pieces without labels that say nothing. -/
def silentPieces : List (List Char) := [[], ['{'], ['}'], [')']]

def readBody (cs : List Char) : Reading :=
  if cs ∈ silentPieces then {}
  else if cs.head? = some '.' then Statement.readDirective cs
  else
    match Instruction.readInstruction cs with
    | .ok i => .statement (.instruction i)
    | .error errors => { errors }

def readPiece (cs : List Char) : Reading :=
  match h : cutAt? (· == ':') cs with
  | none => readBody cs
  | some (before, after) =>
    if isLabelName (trim before) then
      have := Nat.lt_of_le_of_lt (length_trim_le after) (length_cutAt_snd_lt h)
      .statement (.label (String.ofList (trim before))) ++ readPiece (trim after)
    else readBody cs
termination_by cs.length

/-- A label in front of a piece is read off. -/
theorem readPiece_label {cs before after : List Char}
    (h : cutAt? (· == ':') cs = some (before, after)) (hl : isLabelName (trim before) = true) :
    readPiece cs =
      .statement (.label (String.ofList (trim before))) ++ readPiece (trim after) := by
  rw [readPiece]
  split
  · simp_all
  · next h' =>
    obtain ⟨rfl, rfl⟩ := Prod.mk.inj (Option.some.inj (h.symm.trans h'))
    simp [hl]

/-- A piece without a label in front is read as it is. -/
theorem readPiece_body {cs : List Char}
    (h : ∀ before after, cutAt? (· == ':') cs = some (before, after) →
      isLabelName (trim before) = false) : readPiece cs = readBody cs := by
  rw [readPiece]
  split
  · rfl
  · next h' => simp [h _ _ h']

def readCode (cs : List Char) : Reading :=
  .join ((split (· == ';') cs).map fun piece => readPiece (trim piece))

/-- Reads lines, given whether a comment is open in front of them. -/
def readLines (inComment : Bool) : List (List Char) → Reading
  | [] => {}
  | line :: rest =>
    let code := stripComments inComment line
    readCode code.1 ++ readLines code.2 rest

def read (text : String) : Reading := readLines false (lines text.toList)

end KernelListing.Source
