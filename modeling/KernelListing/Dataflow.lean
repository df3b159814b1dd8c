import KernelListing.FlowGraph.Basic
import KernelListing.Text.Lines

/-!
# Dataflow summaries

For each block of a graph, the numbers of the registers that it writes and of those that it
reads, each in the order of their first access, and the blocks around it. The summary is a
snapshot: it keeps the instructions it was made from, and later changes to the graph do not
reach it.
-/

namespace KernelListing

/-- The numbers of the registers that an operand accesses. A guard that does not depend on a
predicate accesses none. -/
def Operand.accessed (op : Operand) : List Nat :=
  if ! op.isRegisterLike || op.isAlwaysTrue || op.isAlwaysFalse then []
  else op.scalars.map (·.number)

namespace Instruction

/-- Whether an instruction writes the operand in a slot. The base of an address is read even
where the address is written to. -/
def writes (i : Instruction) : Slot → Bool
  | .d => i.opcode.definesDestination && i.d.mode != .indirect
  | .q => true
  | .a | .b | .c | .guard => false

/-- The numbers of the registers in the slots that satisfy `p`, in the order of the slots. -/
def accessedIn (i : Instruction) (p : Slot → Bool) : List Nat :=
  (Slot.all.filter p).flatMap fun s => (i.operand s).accessed

def definitions (i : Instruction) : List Nat := i.accessedIn i.writes

def uses (i : Instruction) : List Nat := i.accessedIn (! i.writes ·)

end Instruction

/-- The summary of a block. -/
structure DataflowBlock where
  id : BlockId
  instructions : List Instruction
  /-- The registers that the block writes, in the order of the first write. -/
  definitions : List Nat
  /-- The registers that the block reads, in the order of the first read. -/
  uses : List Nat
  predecessors : List BlockId
  successors : List BlockId
  deriving DecidableEq, Repr

/-- The summary of a graph, block by block. -/
structure Dataflow where
  blocks : List DataflowBlock
  deriving DecidableEq, Repr

namespace Dataflow

def ofBlock (g : FlowGraph) (b : Block) : DataflowBlock where
  id := b.id
  instructions := b.instructions
  definitions := (b.instructions.flatMap Instruction.definitions).eraseDups
  uses := (b.instructions.flatMap Instruction.uses).eraseDups
  predecessors := (g.predecessors b.id).map (·.head)
  successors := (g.successors b.id).map (·.tail)

def ofGraph (g : FlowGraph) : Dataflow where
  blocks := g.blocks.map (ofBlock g)

def block? (s : Dataflow) (id : BlockId) : Option DataflowBlock :=
  s.blocks.find? (·.id = id)

/-- Some texts as a list in brackets. -/
def listText (items : List String) : String := "[" ++ ", ".intercalate items ++ "]"

def blockText (b : DataflowBlock) : String :=
  b.id.text ++ ": defs " ++ listText (b.definitions.map toString) ++
    " uses " ++ listText (b.uses.map toString) ++
    " preds " ++ listText (b.predecessors.map BlockId.text) ++
    " succs " ++ listText (b.successors.map BlockId.text)

def text (s : Dataflow) : String := Text.ofLines (s.blocks.map blockText)

end Dataflow

end KernelListing
