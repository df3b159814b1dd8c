import KernelListing.ReadError
import KernelListing.Text.IntegerLiteral
import KernelListing.Text.LabelName
import KernelListing.Text.Split

/-!
# Reading operands

`readOperand` decides by its first character what a token is: a vector in braces, an address in
brackets, a register behind a percent sign, an integer, or else a label. A register is a
predicate by its spelling, `%p` and digits, or a hardware register by its name up to the first
dot; any other takes the type of its instruction.
-/

namespace KernelListing.Operand

open Text

/-- The names of the hardware registers, without what may follow behind a dot. -/
def hardwareNames : List String :=
  ["%tid", "%ntid", "%ctaid", "%nctaid", "%laneid", "%warpid", "%clock", "%smid"]

/-- Whether a register is a hardware register. -/
def isHardwareName (name : List Char) : Bool :=
  String.ofList (name.takeWhile (· != '.')) ∈ hardwareNames

/-- Whether a register is a predicate by its spelling. -/
def isPredicateName : List Char → Bool
  | '%' :: 'p' :: digits => ! digits.isEmpty && digits.all Char.isDigit
  | _ => false

/-- The register of a given name, where `type` is the type of the instruction. -/
def ofRegisterName (name : List Char) (type : DataType) : Operand :=
  if isHardwareName name then special (String.ofList name) .u32
  else if isPredicateName name then predicate (String.ofList name)
  else register (String.ofList name) type

def readInteger (literal : List Char) : Except ReadError Int64 :=
  match integer? literal with
  | some n => .ok n
  | none => .error (.invalidInteger (String.ofList literal))

/-- An offset in the width that addresses have for it. -/
def toOffset (n : Int64) : Except ReadError Int32 :=
  if Int32.minValue.toInt ≤ n.toInt ∧ n.toInt ≤ Int32.maxValue.toInt then
    .ok (Int32.ofInt n.toInt)
  else .error (.offsetOutOfRange n)

/-- The inside of an address up to its first sign, and the rest. A sign in front does not
count, so a base is never empty unless all is. -/
def cutOffset : List Char → List Char × List Char
  | [] => ([], [])
  | first :: rest =>
    (first :: rest.takeWhile fun c => ! (c == '+' || c == '-'),
     rest.dropWhile fun c => ! (c == '+' || c == '-'))

/-- Reads an offset with the sign in front. A minus sign belongs to the integer, a plus sign
does not. Where nothing stands the offset is zero. -/
def readOffset : List Char → Except ReadError Int32
  | [] => .ok 0
  | '+' :: digits => readInteger (trim digits) >>= toOffset
  | signed => readInteger (trim signed) >>= toOffset

def readAddress (inner : List Char) (type : DataType) : Except ReadError Operand := do
  let parts := cutOffset (trim inner)
  let offset ← readOffset parts.2
  match trim parts.1 with
  | [] => throw (.missingBase (String.ofList (trim inner)))
  | '%' :: name => return indirect (String.ofList ('%' :: name)) offset type
  | symbol => return address (String.ofList symbol) offset type

/-- Reads an element of a vector. -/
def readElement (token : List Char) (type : DataType) : Except ReadError Operand :=
  if token.head? == some '%' then .ok (ofRegisterName token type)
  else .error (.invalidElement (String.ofList token))

def readVector (inner : List Char) (type : DataType) : Except ReadError Operand := do
  let elements ← (split (· == ',') inner).mapM fun piece => readElement (trim piece) type
  (vector elements).mapError .operand

/-- Reads an operand, where `type` is the type of the instruction. -/
def readOperand (token : List Char) (type : DataType) : Except ReadError Operand :=
  match token with
  | '{' :: rest =>
    match ['}'].isSuffixOf? rest with
    | some inner => readVector inner type
    | none => .error (.unclosedVector (String.ofList token))
  | '[' :: rest =>
    match [']'].isSuffixOf? rest with
    | some inner => readAddress inner type
    | none => .error (.unclosedAddress (String.ofList token))
  | '%' :: _ => .ok (ofRegisterName token type)
  | _ =>
    if token.head?.any fun c => c.isDigit || c == '-' then
      (readInteger token).map fun n => immediate n type
    else if isLabelName token then .ok (label (String.ofList token))
    else .error (.unexpectedOperand (String.ofList token))

end KernelListing.Operand
