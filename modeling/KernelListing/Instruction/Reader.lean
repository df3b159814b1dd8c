import KernelListing.Instruction.Basic
import KernelListing.Operand.Reader

/-!
# Reading instructions

An instruction is an optional guard, an operation with the modifiers and the type that hang on
it by dots, and up to four arguments. `splitArguments` cuts the arguments at the commas that
stand outside all brackets. Each argument that cannot be read is reported; one is enough for
the instruction to be dropped.
-/

namespace KernelListing.Instruction

open Text

/-- How many brackets are open behind a character. A closing bracket without an opening one
changes nothing. -/
def depthAfter (depth : Nat) (c : Char) : Nat :=
  if c = '{' ∨ c = '[' then depth + 1
  else if c = '}' ∨ c = ']' then depth - 1
  else depth

/-- The pieces of a text between the commas outside all brackets, where `depth` brackets are
open in front of it. -/
def argumentPieces (depth : Nat) : List Char → List (List Char)
  | [] => [[]]
  | c :: cs =>
    if c = ',' ∧ depth = 0 then [] :: argumentPieces 0 cs
    else consFirst c (argumentPieces (depthAfter depth c) cs)

/-- The arguments of an instruction. A blank text holds none; otherwise an empty piece is an
argument too, which is an error later. -/
def splitArguments (cs : List Char) : List (List Char) :=
  match (argumentPieces 0 cs).map trim with
  | [[]] => []
  | pieces => pieces

/-- Reads the predicate of a guard: the constant one or a register. -/
def readPredicate? (name : List Char) : Option Operand :=
  if name = ['p', 't'] then some .alwaysTrue
  else if name.head? = some '%' then some (.predicate (String.ofList name))
  else none

/-- Reads a guard, without the sign in front: a predicate, or one that must not hold. -/
def readGuard (token : List Char) : Except ReadError Operand :=
  let guard :=
    match token with
    | '!' :: name => (readPredicate? name).map Operand.negate
    | name => readPredicate? name
  match guard with
  | some op => .ok op
  | none => .error (.invalidGuard (String.ofList token))

/-- Reads the guard in front of an instruction, if there is one, and gives the text behind
it. -/
def readGuarded (cs : List Char) : Except ReadError (Operand × List Char) :=
  match cs with
  | '@' :: rest =>
    let parts := cutAt isBlank rest
    (readGuard parts.1).map fun guard => (guard, trimStart parts.2)
  | _ => .ok (.alwaysTrue, cs)

/-- Reads an operation: its name, and behind dots its modifiers and its type. The last part is
the type if it names one. -/
def readOperation (cs : List Char) : Except ReadError Instruction :=
  let parts := split (· == '.') cs
  match Opcode.ofName? (String.ofList (parts.headD [])) with
  | none => .error (.unknownInstruction (String.ofList cs))
  | some opcode =>
    let suffixes := parts.tail
    let type := suffixes.getLast?.bind fun name => DataType.ofName? (String.ofList name)
    let modifiers := if type.isSome then suffixes.dropLast else suffixes
    .ok { opcode, type, modifiers := String.ofList (modifiers.flatMap ('.' :: ·)) }

/-- Reads an argument into its slot. The destination of a comparison may be two predicates with
a bar between them, the last source of a selection is a predicate, and the destination of a
jump is a label whatever it looks like. -/
def readArgument (i : Instruction) (s : Slot) (token : List Char) :
    Except ReadError Instruction :=
  if token.isEmpty then .error (.missingOperand i.opcode)
  else
    match i.opcode, s with
    | .setp, .d =>
      match cutAt? (· == '|') token with
      | some (first, second) =>
        .ok { i with
          d := .predicate (String.ofList (trim first))
          q := .predicate (String.ofList (trim second)) }
      | none => .ok { i with d := .predicate (String.ofList token) }
    | .selp, .c => (Operand.readOperand token .pred).map (i.setOperand .c)
    | .bra, .d => .ok (i.setOperand .d (.label (String.ofList token)))
    | .call, .d => .ok (i.setOperand .d (.label (String.ofList token)))
    | _, _ => (Operand.readOperand token (i.type.getD .b32)).map (i.setOperand s)

/-- Reads arguments into their slots, one after the other, and collects the errors of all of
them. -/
def readArguments (i : Instruction) :
    List (Slot × List Char) → Except (List ReadError) Instruction
  | [] => .ok i
  | (s, token) :: rest =>
    match readArgument i s token with
    | .ok i' => readArguments i' rest
    | .error e =>
      match readArguments i rest with
      | .ok _ => .error [e]
      | .error es => .error (e :: es)

def readInstruction (cs : List Char) : Except (List ReadError) Instruction := do
  let (guard, rest) ← (readGuarded cs).mapError ([·])
  let parts := cutAt isBlank rest
  let operation ← (readOperation parts.1).mapError ([·])
  let arguments := splitArguments parts.2
  if Slot.arguments.length < arguments.length then
    throw [.tooManyArguments (String.ofList parts.1) arguments.length]
  readArguments { operation with guard } (Slot.arguments.zip arguments)

/-- A failed reading names at least one error. -/
theorem readArguments_ne_nil {i : Instruction} {arguments : List (Slot × List Char)}
    {es : List ReadError} (h : readArguments i arguments = .error es) : es ≠ [] := by
  induction arguments generalizing i es with
  | nil => simp [readArguments] at h
  | cons first rest ih =>
    rw [readArguments] at h
    split at h
    · exact ih h
    · split at h <;> cases h <;> simp

end KernelListing.Instruction
