import KernelListing.FlowGraph.Draft
import KernelListing.Register.Declarations
import KernelListing.Register.Numbering

/-!
# Kernels

A kernel is its name, its parameters and variables, and its body as a control flow graph whose
registers have been numbered. The dataflow summary is made on demand and kept from then on;
once it is there, the declarations of registers come from it.
-/

namespace KernelListing

structure Kernel where
  name : String
  parameters : List Parameter := []
  /-- The variables by name. -/
  storage : SortedTable String Variable := []
  /-- The body. -/
  graph : FlowGraph := .empty
  /-- The numbering that was made when the kernel was built. -/
  numbering : Numbering := {}
  /-- The summary of the body, if it has been asked for. -/
  dataflow? : Option Dataflow := none
  deriving DecidableEq, Repr

namespace Kernel

/-- Takes a declaration into a kernel. The last name of the kernel counts, and the first
variable of each name. -/
def declare (k : Kernel) : Statement → Kernel
  | .entry name => { k with name }
  | .parameter p => { k with parameters := k.parameters ++ [p] }
  | .localVariable v => { k with storage := SortedTable.insertIfNew v.name v k.storage }
  | .sharedVariable v => { k with storage := SortedTable.insertIfNew v.name v k.storage }
  | .label _ => k
  | .instruction _ => k

/-- The declarations among some statements, as a kernel without a body. -/
def ofDeclarations (statements : List Statement) : Kernel :=
  statements.foldl declare { name := "" }

/-- The kernel with a body, whose registers it numbers from zero. -/
def withBody (k : Kernel) (g : FlowGraph) : Kernel :=
  let (graph, numbering) := Numbering.ofGraph g
  { k with graph, numbering }

/-- The kernel that some statements describe. -/
def ofStatements (statements : List Statement) : Except BuildError Kernel :=
  (FlowGraph.ofStatements statements).map (ofDeclarations statements).withBody

/-- The dataflow summary: the one that was made before, or that of the body as it is now. -/
def dataflow (k : Kernel) : Dataflow := k.dataflow?.getD (.ofGraph k.graph)

/-- The kernel that keeps its dataflow summary. -/
def withDataflow (k : Kernel) : Kernel := { k with dataflow? := some k.dataflow }

/-- Whether the kernel keeps a dataflow summary. -/
def hasDataflow (k : Kernel) : Bool := k.dataflow?.isSome

/-- The registers that the kernel has to declare. -/
def registerDeclarations (k : Kernel) : List Register :=
  match k.dataflow? with
  | some s => Register.declarationsInOrder s
  | none => Register.declarations k.graph

end Kernel

end KernelListing
