import KernelListing.Instruction.Basic
import KernelListing.Operand.Printer

/-!
# The text of an instruction

The guard, the opcode with its modifiers and type, then the arguments separated by commas. A
second destination stands behind the first, after a bar. Empty slots are passed over.
-/

namespace KernelListing.Instruction

/-- The text of an opcode with everything that hangs on it. -/
def operationText (i : Instruction) : String :=
  i.opcode.name ++ i.modifiers ++ (i.type.map fun t => "." ++ t.name).getD ""

/-- The text of the operand in a slot, together with the second destination in the first
slot. -/
def argumentText (i : Instruction) (s : Slot) : String :=
  (i.operand s).text ++ (if s = .d ∧ i.q.isValid then "|" ++ i.q.text else "")

def argumentTexts (i : Instruction) : List String :=
  (Slot.arguments.filter fun s => (i.operand s).isValid).map i.argumentText

def text (i : Instruction) : String :=
  let arguments := i.argumentTexts
  i.guard.guardText ++ i.operationText ++
    (if arguments.isEmpty then "" else " " ++ ", ".intercalate arguments)

end KernelListing.Instruction
