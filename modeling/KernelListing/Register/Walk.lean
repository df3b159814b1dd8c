import KernelListing.FlowGraph.Basic

/-!
# The walk over the registers of a graph

A graph is walked over block by block, instruction by instruction and slot by slot, and each
register that has a name gives it up for a number. Where the numbers come from is left open:
`numberOf` finds the number of a name, and may keep a state or fail. Guards that always hold name
no register and stay as they are, and so does every operand that is not a register or an address
with one; a vector is walked over element by element. A name that is already gone is not met
again.
-/

namespace KernelListing

section walk

variable {M : Type → Type} [Monad M] (numberOf : String → M Nat)

/-- Puts the number of a register in the place of its name. -/
def Operand.numberScalar (op : Operand) : M Operand :=
  if op.name.isEmpty then pure op
  else do
    let number ← numberOf op.name
    return { op with name := "", number }

def Operand.numberRegisters (op : Operand) : M Operand :=
  if ! op.isValid || op.isAlwaysTrue || ! op.isRegisterLike then pure op
  else if op.elements.isEmpty then op.numberScalar numberOf
  else do
    let elements ← op.elements.mapM (Operand.numberScalar numberOf)
    return { op with elements }

/-- Numbers the registers of an instruction in some slots, one after another. -/
def Instruction.numberSlots (slots : List Slot) (i : Instruction) : M Instruction :=
  slots.foldlM (fun i s => i.setOperand s <$> (i.operand s).numberRegisters numberOf) i

def Instruction.numberRegisters (i : Instruction) : M Instruction :=
  i.numberSlots numberOf Slot.all

def Block.numberRegisters (b : Block) : M Block := do
  let instructions ← b.instructions.mapM (Instruction.numberRegisters numberOf)
  return { b with instructions }

/-- Numbers the registers in a slot of the arena. -/
def Block.numberSlot : Option Block → M (Option Block)
  | none => pure none
  | some b => some <$> b.numberRegisters numberOf

def FlowGraph.numberRegisters (g : FlowGraph) : M FlowGraph := do
  let slots ← g.slots.mapM (Block.numberSlot numberOf)
  return { g with slots }

end walk

end KernelListing
