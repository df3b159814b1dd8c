/-!
# Opcodes

The operations an instruction can name. What the rest of the library needs to know about an
operation is whether it ends a run of straight-line code (`isControlFlow`) and whether it
writes its first operand (`definesDestination`).
-/

namespace KernelListing

/-- An operation. `bra` and `call` jump to a label, `exit` and `ret` leave the kernel, `ld` and
`st` access memory, `setp` and `selp` write and read predicates; all others compute. -/
inductive Opcode where
  | abs | add | and | bar | bfi | bra | call | cvt | cvta | div | exit | ld | mad | max | min
  | mov | mul | neg | not | or | rem | ret | selp | setp | shl | shr | st | sub | xor
  deriving DecidableEq, Repr, Inhabited

namespace Opcode

/-- The name of an operation, which is the first part of an instruction's text. -/
def name : Opcode → String
  | abs => "abs" | add => "add" | and => "and" | bar => "bar" | bfi => "bfi" | bra => "bra"
  | call => "call" | cvt => "cvt" | cvta => "cvta" | div => "div" | exit => "exit" | ld => "ld"
  | mad => "mad" | max => "max" | min => "min" | mov => "mov" | mul => "mul" | neg => "neg"
  | not => "not" | or => "or" | rem => "rem" | ret => "ret" | selp => "selp" | setp => "setp"
  | shl => "shl" | shr => "shr" | st => "st" | sub => "sub" | xor => "xor"

def all : List Opcode :=
  [abs, add, and, bar, bfi, bra, call, cvt, cvta, div, exit, ld, mad, max, min,
   mov, mul, neg, not, or, rem, ret, selp, setp, shl, shr, st, sub, xor]

/-- The operation of a given name. -/
def ofName? (text : String) : Option Opcode := all.find? (·.name == text)

theorem mem_all (o : Opcode) : o ∈ all := by cases o <;> decide

theorem ofName?_name (o : Opcode) : ofName? o.name = some o := by cases o <;> decide

theorem name_of_ofName? {text : String} {o : Opcode} (h : ofName? text = some o) :
    o.name = text := by
  simpa using List.find?_some h

/-- Whether the operation ends a basic block. -/
def isControlFlow (o : Opcode) : Bool := o ∈ [bra, exit, call, ret]

/-- Whether the operation writes its first operand. A branch only reads it, as the label to
jump to, and a store only reads it, as the address to write to. -/
def definesDestination (o : Opcode) : Bool := o ∉ [bra, st]

end Opcode

end KernelListing
