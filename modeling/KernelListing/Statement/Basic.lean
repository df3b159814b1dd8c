import KernelListing.Instruction.Printer

/-!
# Statements

The flat form of a kernel, as it is read: labels, instructions, and the declarations of the
kernel's name, its parameters and its variables.
-/

namespace KernelListing

/-- Where a variable lives. -/
inductive StateSpace where
  /-- Private to a thread. -/
  | localMemory
  /-- Common to the threads of a block. -/
  | sharedMemory
  deriving DecidableEq, Repr, Inhabited

/-- The directive that declares a variable in the space. -/
def StateSpace.directive : StateSpace → String
  | localMemory => ".local"
  | sharedMemory => ".shared"

structure Parameter where
  name : String
  type : DataType
  deriving DecidableEq, Repr, Inhabited

def Parameter.text (p : Parameter) : String := ".param ." ++ p.type.name ++ " " ++ p.name

structure Variable where
  space : StateSpace
  name : String
  type : DataType
  align : Option UInt32 := none
  /-- The number of elements, if the variable is an array. -/
  elements : Option UInt32 := none
  deriving DecidableEq, Repr, Inhabited

def Variable.text (v : Variable) : String :=
  v.space.directive ++
    (v.align.map fun n => " .align " ++ toString n.toNat).getD "" ++
    " ." ++ v.type.name ++ " " ++ v.name ++
    (v.elements.map fun n => "[" ++ toString n.toNat ++ "]").getD "" ++ ";"

inductive Statement where
  | label (name : String)
  | instruction (i : Instruction)
  | parameter (p : Parameter)
  | localVariable (v : Variable)
  | sharedVariable (v : Variable)
  /-- Names the kernel. -/
  | entry (name : String)
  deriving DecidableEq, Repr, Inhabited

namespace Statement

def instruction? : Statement → Option Instruction
  | instruction i => some i
  | _ => none

/-- The text of a statement, where one is defined: labels and kernel names are written as part
of a listing and have none of their own. -/
def text? : Statement → Option String
  | label _ => none
  | instruction i => some i.text
  | parameter p => some p.text
  | localVariable v => some v.text
  | sharedVariable v => some v.text
  | entry _ => none

end Statement

end KernelListing
