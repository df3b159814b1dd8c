import KernelListing.BuildError
import KernelListing.Statement.Basic

/-!
# The control flow graph of a list of statements

The statements are taken one after the other into a `Draft`: a graph whose current block grows
at its end. A label closes a block that has instructions, and `bra`, `exit` and `ret` close the
block they stand in. Edges along which control falls through are known when the next block is
closed, since a block that stays empty is never joined; edges of branches wait until all labels
are known.

`FlowGraph.ofStatements` is the graph, or the first structural error.
-/

namespace KernelListing

namespace FlowGraph

/-- A branch whose edge has yet to be drawn. -/
structure OpenBranch where
  /-- The block that the branch ends. -/
  origin : BlockId
  /-- The name of the label it goes to. -/
  target : String
  /-- Whether the branch is never taken, so that it has no edge. -/
  dead : Bool
  deriving DecidableEq, Repr

/-- A graph to which statements can be added. -/
structure Draft where
  graph : FlowGraph
  /-- The block at the end. -/
  current : BlockId
  /-- The block that falls into the current one, if there is one and their edge has yet to be
  drawn. -/
  pending : Option BlockId
  /-- The labels so far and the blocks they name. -/
  labels : List (String × BlockId)
  /-- The branches so far. -/
  branches : List OpenBranch
  exitSeen : Bool
  deriving DecidableEq, Repr

namespace Draft

/-- Opens a new block at the end of a graph. -/
def openBlock (g : FlowGraph) : Except BuildError (BlockId × FlowGraph) := do
  let (id, g) ← g.newId.mapError .fault
  let g ← (g.insertBlock { id }).mapError .fault
  return (id, g)

/-- The draft before the first statement: the entry block falls into the first block. -/
def start : Except BuildError Draft := do
  let (current, graph) ← openBlock .empty
  return {
    graph, current, pending := some FlowGraph.entry,
    labels := [], branches := [], exitSeen := false }

/-- The block at the end. -/
def currentBlock (d : Draft) : Except BuildError Block :=
  match d.graph.block? d.current with
  | some b => .ok b
  | none => .error (.fault (.missingBlock d.current))

def modifyCurrent (d : Draft) (f : Block → Block) : Except BuildError Draft := do
  let graph ← (d.graph.modifyBlock d.current f).mapError .fault
  return { d with graph }

def insertEdge (d : Draft) (e : Edge) : Except BuildError Draft := do
  let graph ← (d.graph.insertEdge e).mapError .fault
  return { d with graph }

/-- Draws the edge along which control falls into the current block. -/
def joinPending (d : Draft) : Except BuildError Draft :=
  match d.pending with
  | none => .ok d
  | some head => { d with pending := none }.insertEdge ⟨head, d.current, .fallThrough⟩

/-- Opens the next block; `pending` is the block that falls into it, if any. -/
def nextBlock (d : Draft) (pending : Option BlockId) : Except BuildError Draft := do
  let (current, graph) ← openBlock d.graph
  return { d with graph, current, pending }

/-- Closes the current block in front of a label, unless it is empty. -/
def closeForLabel (d : Draft) : Except BuildError Draft := do
  if (← d.currentBlock).isEmpty then return d
  else (← d.joinPending).nextBlock (some d.current)

/-- Lets a label name the current block. -/
def nameCurrent (d : Draft) (name : String) : Except BuildError Draft := do
  let d ← d.modifyCurrent fun b => { b with label := name }
  return { d with labels := (name, d.current) :: d.labels }

/-- Adds a label. It closes a block that has instructions, and names a block that has none. -/
def addLabel (d : Draft) (name : String) (statement : Nat) : Except BuildError Draft := do
  let d ← d.closeForLabel
  if (d.labels.lookup name).isSome then throw (.duplicateLabel name statement)
  else d.nameCurrent name

/-- Closes the current block behind a branch, which falls through unless it is always taken. -/
def closeWithBranch (d : Draft) (i : Instruction) : Except BuildError Draft := do
  let d ← d.joinPending
  let branch := { origin := d.current, target := i.d.name, dead := i.guard.isAlwaysFalse }
  let d := { d with branches := d.branches ++ [branch] }
  d.nextBlock (if i.guard.isAlwaysTrue then none else some d.current)

/-- Closes the current block behind an instruction that leaves the kernel, whatever its
guard. -/
def closeWithLeave (d : Draft) (kind : EdgeKind) : Except BuildError Draft := do
  let d ← d.joinPending
  let d ← d.insertEdge ⟨d.current, FlowGraph.exit, kind⟩
  d.nextBlock none

/-- Adds an instruction at the end of the current block, and closes the block where the
instruction does. -/
def pushInstruction (d : Draft) (i : Instruction) : Except BuildError Draft := do
  let d ← d.modifyCurrent fun b => { b with instructions := b.instructions ++ [i] }
  match i.opcode with
  | .bra => d.closeWithBranch i
  | .exit => closeWithLeave { d with exitSeen := true } .fallThrough
  | .ret => d.closeWithLeave .branch
  | _ => return d

/-- Adds an instruction, unless it is a call or a second exit. -/
def addInstruction (d : Draft) (i : Instruction) (statement : Nat) : Except BuildError Draft :=
  if i.opcode = .call then .error (.unsupportedControlFlow i.opcode statement)
  else if i.opcode = .exit ∧ d.exitSeen then .error (.duplicateExit statement)
  else d.pushInstruction i

/-- Adds a statement. Declarations leave the graph alone. -/
def addStatement (d : Draft) : Statement × Nat → Except BuildError Draft
  | (.label name, statement) => d.addLabel name statement
  | (.instruction i, statement) => d.addInstruction i statement
  | _ => .ok d

/-- Finishes the current block. An empty one goes, with the labels that name it. -/
def closeLast (d : Draft) : Except BuildError Draft := do
  if (← d.currentBlock).isEmpty then
    let (_, graph) ← (d.graph.removeBlock d.current).mapError .fault
    return { d with graph, labels := d.labels.filter (·.2 ≠ d.current) }
  else d.joinPending

/-- The instructions of a block with another destination for the last one. -/
def retargetLast (name : String) (is : List Instruction) : List Instruction :=
  is.dropLast ++ (is.getLast?.map (·.renameDestination name)).toList

/-- Draws the edge of a branch, and lets the branch go by the name that its target bears. -/
def resolveBranch (labels : List (String × BlockId)) (g : FlowGraph) (branch : OpenBranch) :
    Except BuildError FlowGraph :=
  match labels.lookup branch.target with
  | none => .error (.undefinedLabel branch.target)
  | some target => do
    let name := ((g.block? target).map (·.label)).getD ""
    let g ← (g.modifyBlock branch.origin fun b =>
      { b with instructions := retargetLast name b.instructions }).mapError .fault
    if branch.dead then return g
    else (g.insertEdge ⟨branch.origin, target, .branch⟩).mapError .fault

/-- The finished graph. -/
def finish (d : Draft) : Except BuildError FlowGraph := do
  let d ← d.closeLast
  if d.exitSeen then d.branches.foldlM (resolveBranch d.labels) d.graph
  else throw .missingExit

end Draft

/-- The control flow graph of a list of statements. -/
def ofStatements (statements : List Statement) : Except BuildError FlowGraph := do
  let d ← statements.zipIdx.foldlM Draft.addStatement (← Draft.start)
  d.finish

end FlowGraph

end KernelListing
