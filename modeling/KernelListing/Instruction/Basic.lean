import KernelListing.Opcode
import KernelListing.Operand.Basic

/-!
# Instructions

An instruction has six operand slots: the destination `d`, three sources `a`, `b` and `c`, the
guard, and a second predicate destination `q`. `Slot.all` fixes the order in which they are
visited; registers are numbered in that order.
-/

namespace KernelListing

/-- One of the six operand slots of an instruction. -/
inductive Slot where
  | d | a | b | c | guard | q
  deriving DecidableEq, Repr, Inhabited

namespace Slot

/-- The slots in the order in which they are visited, destination first. -/
def all : List Slot := [d, a, b, c, guard, q]

/-- The slots that are written as arguments, in that order. -/
def arguments : List Slot := [d, a, b, c]

theorem mem_all (s : Slot) : s ∈ all := by cases s <;> decide

end Slot

/-- An instruction. A new one is unguarded and has no operands. -/
structure Instruction where
  opcode : Opcode
  /-- Everything between the opcode and the type, dots included. -/
  modifiers : String := ""
  type : Option DataType := none
  d : Operand := .invalid
  a : Operand := .invalid
  b : Operand := .invalid
  c : Operand := .invalid
  guard : Operand := .alwaysTrue
  /-- The second predicate that a comparison writes. -/
  q : Operand := .invalid
  deriving DecidableEq, Repr, Inhabited

namespace Instruction

/-- The unconditional branch to a label. -/
def branch (target : String) : Instruction :=
  { opcode := .bra, modifiers := ".uni", d := .label target }

def operand (i : Instruction) : Slot → Operand
  | .d => i.d
  | .a => i.a
  | .b => i.b
  | .c => i.c
  | .guard => i.guard
  | .q => i.q

/-- The instruction with another operand in a slot. -/
def setOperand (i : Instruction) (s : Slot) (op : Operand) : Instruction :=
  match s with
  | .d => { i with d := op }
  | .a => { i with a := op }
  | .b => { i with b := op }
  | .c => { i with c := op }
  | .guard => { i with guard := op }
  | .q => { i with q := op }

@[simp] theorem operand_setOperand_self (i : Instruction) (s : Slot) (op : Operand) :
    (i.setOperand s op).operand s = op := by
  cases s <;> rfl

theorem operand_setOperand_of_ne (i : Instruction) {s s' : Slot} (h : s' ≠ s) (op : Operand) :
    (i.setOperand s op).operand s' = i.operand s' := by
  cases s <;> cases s' <;> first | rfl | exact absurd rfl h

/-- The instruction with a new name in its destination slot. -/
def renameDestination (i : Instruction) (name : String) : Instruction :=
  { i with d := { i.d with name } }

end Instruction

end KernelListing
