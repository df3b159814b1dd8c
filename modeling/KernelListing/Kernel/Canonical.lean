import KernelListing.Kernel.Basic
import KernelListing.Kernel.Label

/-!
# Canonical labels

Canonicalizing a kernel gives each of its blocks, the entry and exit blocks apart, the label
made of the kernel's id and the block's. The old label becomes the block's comment, and the
branches follow. A name that several blocks bore stands for the last of them.
-/

namespace KernelListing

namespace FlowGraph

/-- Whether a block is neither the entry nor the exit block. -/
def isInner (b : Block) : Bool := b.id != entry && b.id != exit

/-- The block under its canonical label. -/
def canonicalBlock (kernelId : Nat) (b : Block) : Block :=
  if isInner b then { b with label := Label.canonical kernelId b.id, comment := b.label } else b

/-- The old labels with the canonical ones, the last block first. -/
def canonicalRenaming (g : FlowGraph) (kernelId : Nat) : List (String × String) :=
  ((g.blocks.filter fun b => isInner b && ! b.label.isEmpty).map fun b =>
    (b.label, Label.canonical kernelId b.id)).reverse

/-- The instruction with another destination, if it is a branch to a renamed label. -/
def retarget (renames : List (String × String)) (i : Instruction) : Instruction :=
  if i.opcode = .bra then i.renameDestination ((renames.lookup i.d.name).getD i.d.name) else i

/-- The block with all its branches retargeted. -/
def retargetBlock (renames : List (String × String)) (b : Block) : Block :=
  { b with instructions := b.instructions.map (retarget renames) }

/-- The graph under canonical labels. -/
def canonicalize (g : FlowGraph) (kernelId : Nat) : FlowGraph :=
  g.mapBlocks fun b => retargetBlock (g.canonicalRenaming kernelId) (canonicalBlock kernelId b)

end FlowGraph

namespace Kernel

/-- The kernel under canonical labels. -/
def canonicalize (k : Kernel) (kernelId : Nat) : Kernel :=
  { k with graph := k.graph.canonicalize kernelId }

/-- How many labels canonicalizing a kernel replaces. -/
def renamedCount (k : Kernel) (kernelId : Nat) : Nat :=
  ((k.graph.canonicalRenaming kernelId).map Prod.fst).eraseDups.length

end Kernel

end KernelListing
