import KernelListing.FlowGraph.Basic
import KernelListing.Instruction.Printer
import KernelListing.Text.Lines

/-!
# The text of a graph

Each block in the order of its id, with its instructions indented below it, then each edge.
-/

namespace KernelListing

/-- The comment beside a label, with the space in front of it. -/
def Block.commentText (b : Block) : String :=
  if b.comment.isEmpty then "" else " /* " ++ b.comment ++ " */"

def Block.lines (b : Block) : List String :=
  (b.id.text ++ (if b.label.isEmpty then "" else " " ++ b.label) ++ ":" ++ b.commentText) ::
    b.instructions.map fun i => "    " ++ i.text

def FlowGraph.text (g : FlowGraph) : String :=
  Text.ofLines (g.blocks.flatMap Block.lines ++ g.edges.map Edge.text)

end KernelListing
