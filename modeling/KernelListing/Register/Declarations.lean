import KernelListing.Dataflow
import KernelListing.SortedTable

/-!
# Register declarations

Which registers a kernel has to declare, and with which types, in two ways that differ where a
register is used with several types. `declarations` goes over the graph and lists every
register in the order of the numbers; the last definition decides the type, or the first read
if there is no definition. `declarationsInOrder` goes over a dataflow summary and lists the
registers in the order of their first occurrence, which decides the type; it looks only at some
of the slots.
-/

namespace KernelListing

/-- A register with its type. -/
structure Register where
  number : Nat
  type : DataType
  deriving DecidableEq, Repr

namespace Register

def text (r : Register) : String :=
  ".reg ." ++ r.type.name ++ (if r.type.isPredicate then " %p" else " %r") ++
    toString r.number ++ ";"

/-- The type of each register seen so far, by its number. -/
abbrev Types := SortedTable Nat DataType

/-- Records the types in an operand that is read. They count only for registers without one. -/
def recordReads (types : Types) (op : Operand) : Types :=
  if op.isRegisterLike then
    op.scalars.foldl (fun types s => SortedTable.insertIfNew s.number s.type types) types
  else types

/-- Records the types in an operand that is defined. They replace all earlier ones. -/
def recordDefinitions (types : Types) (op : Operand) : Types :=
  op.scalars.foldl (fun types s => SortedTable.insert s.number s.type types) types

/-- Records the destination of an instruction. -/
def recordDestination (types : Types) (i : Instruction) : Types :=
  if i.opcode.definesDestination && i.d.isRegisterLike then recordDefinitions types i.d
  else recordReads types i.d

/-- Records the second destination of an instruction, which only comparisons have. -/
def recordSecond (types : Types) (i : Instruction) : Types :=
  if i.opcode = .setp ∧ i.q.mode = .register then recordDefinitions types i.q else types

/-- Records the types in an instruction. Guards are not looked at. -/
def recordInstruction (types : Types) (i : Instruction) : Types :=
  recordSecond ([i.a, i.b, i.c].foldl recordReads (recordDestination types i)) i

/-- The declarations for a graph, in the order of the numbers. -/
def declarations (g : FlowGraph) : List Register :=
  ((g.blocks.flatMap (·.instructions)).foldl recordInstruction []).map fun (number, type) =>
    { number, type }

/-- The operands of an instruction that are looked at for declarations in order. -/
def inspected (i : Instruction) : List Operand :=
  if i.opcode = .st then []
  else if i.opcode = .bfi then [i.d]
  else [i.q, i.d, i.a]

/-- The registers that occur in an operand. A predicate stands for itself even where it has
elements. -/
def occurrences (op : Operand) : List Register :=
  if op.mode ≠ .register then []
  else (if op.isPredicate then [op] else op.scalars).map fun s =>
    { number := s.number, type := s.type }

/-- What a walk has met: the numbers of the predicates and of the other registers, and the first
occurrence of each register. -/
structure Met where
  predicates : List Nat := []
  values : List Nat := []
  registers : List Register := []
  deriving DecidableEq, Repr

/-- Whether a register has been met, as a predicate or not. -/
def Met.has (m : Met) (n : Nat) : Bool := n ∈ m.predicates || n ∈ m.values

/-- Meets a register. Only the first occurrence counts, whatever its kind is. -/
def Met.add (m : Met) (r : Register) : Met where
  predicates := if r.type.isPredicate then m.predicates.insert r.number else m.predicates
  values := if r.type.isPredicate then m.values else m.values.insert r.number
  registers := if m.has r.number then m.registers else m.registers ++ [r]

/-- The declarations for a dataflow summary, in the order of the first occurrences. -/
def declarationsInOrder (s : Dataflow) : List Register :=
  ((((s.blocks.flatMap (·.instructions)).flatMap inspected).flatMap occurrences).foldl Met.add
    {}).registers

end Register

end KernelListing
