import KernelListing.FlowGraph.Printer
import KernelListing.FlowGraph.Sequence
import KernelListing.Kernel.Basic
import KernelListing.Kernel.Label

/-!
# The listing of a kernel

The text form of a kernel: a header with its name and parameters, and in braces its variables,
its registers, and its blocks in the order of `FlowGraph.sequence`. A block that has neither
instructions nor a label of its own gets no label line. A block without a label that needs a
line gets a synthetic label by its position, which counts all blocks from one.
-/

namespace KernelListing.Kernel

/-- Whether a block gets a label line. The labels of the entry and exit blocks are none of their
own. -/
def needsLabelLine (b : Block) : Bool :=
  ! b.isEmpty || b.label ∉ ["", FlowGraph.entryLabel, FlowGraph.exitLabel]

/-- The name on the label line of a block. -/
def lineLabel (used : List String) (b : Block) (position : Nat) : String :=
  if b.label.isEmpty then Label.synthetic used position else b.label

def blockLines (used : List String) (b : Block) (position : Nat) : List String :=
  (if needsLabelLine b then ["    " ++ lineLabel used b position ++ ":" ++ b.commentText]
   else []) ++
    b.instructions.map fun i => "        " ++ i.text ++ ";"

def graphLines (g : FlowGraph) : List String :=
  let used := g.blocks.map (·.label)
  ((g.sequence.filterMap g.block?).zipIdx 1).flatMap fun (b, position) =>
    blockLines used b position

def header (k : Kernel) : String :=
  ".entry " ++ k.name ++ "(" ++ ", ".intercalate (k.parameters.map Parameter.text) ++ ")"

/-- The lines of the declarations in a kernel. -/
def declarationLines (k : Kernel) : List String :=
  k.storage.map (fun (_, v) => "    " ++ v.text) ++
    k.registerDeclarations.map (fun r => "    " ++ r.text)

/-- The lines of a listing. The banner is a comment above everything else. -/
def listingLines (k : Kernel) (banner : Option String) : List String :=
  (banner.map fun text => "/* " ++ text ++ " */").toList ++ [k.header, "\x7b"] ++
    k.declarationLines ++ graphLines k.graph ++ ["\x7d"]

def listing (k : Kernel) (banner : Option String) : String := Text.ofLines (k.listingLines banner)

end KernelListing.Kernel
