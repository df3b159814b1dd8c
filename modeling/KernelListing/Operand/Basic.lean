import KernelListing.DataType

/-!
# Operands

An operand names a register, a memory cell, a constant, a label or a hardware register, or is
absent (`invalid`). It is one record rather than a family of cases because the fields outlive a
change of mode: a register is known by its name until it is numbered and by its number from
then on, an address keeps its offset, and a guard carries its condition beside the predicate it
tests.

A vector operand holds its registers in `elements`; `scalars` lists the registers of any
operand, one for a scalar, and `mapScalars` acts on each of them.
-/

namespace KernelListing

/-- What an operand stands for. -/
inductive Mode where
  /-- A register, or a vector of registers. -/
  | register
  /-- A memory cell at a register plus an offset. -/
  | indirect
  /-- A constant. -/
  | immediate
  /-- A memory cell at a symbol plus an offset. -/
  | address
  /-- The target of a branch or call. -/
  | label
  /-- A read-only hardware register, which is never numbered. -/
  | special
  /-- Nothing: the slot is empty. -/
  | invalid
  deriving DecidableEq, Repr, Inhabited

/-- When a guard lets its instruction run. -/
inductive Condition where
  | always
  | never
  /-- If the predicate holds. -/
  | ifTrue
  /-- If the predicate does not hold. -/
  | ifFalse
  deriving DecidableEq, Repr, Inhabited

namespace Condition

def negate : Condition → Condition
  | always => never
  | never => always
  | ifTrue => ifFalse
  | ifFalse => ifTrue

@[simp] theorem negate_negate (c : Condition) : c.negate.negate = c := by cases c <;> rfl

end Condition

/-- An operand. The defaults are those of the absent operand. -/
structure Operand where
  mode : Mode := .invalid
  /-- The symbolic name, empty once the register has a number. -/
  name : String := ""
  /-- The number of the register, meaningful once the name is gone. -/
  number : Nat := 0
  type : DataType := .b32
  /-- The elements of a vector, empty for a scalar. -/
  elements : List Operand := []
  condition : Condition := .ifTrue
  offset : Int32 := 0
  /-- The value of a constant. -/
  value : Int64 := 0
  deriving Repr, Inhabited

namespace Operand

mutual

/-- Equality of operands is decided field by field, and element by element in a vector. -/
def decEq : (x y : Operand) → Decidable (x = y)
  | ⟨mode, name, number, type, elements, condition, offset, value⟩,
    ⟨mode', name', number', type', elements', condition', offset', value'⟩ =>
    have := decEqAll elements elements'
    decidable_of_iff
      (mode = mode' ∧ name = name' ∧ number = number' ∧ type = type' ∧ elements = elements' ∧
        condition = condition' ∧ offset = offset' ∧ value = value')
      (by simp)
termination_by structural x => x

/-- Equality of the elements of two vectors. -/
def decEqAll : (xs ys : List Operand) → Decidable (xs = ys)
  | [], [] => .isTrue rfl
  | [], _ :: _ => .isFalse nofun
  | _ :: _, [] => .isFalse nofun
  | x :: xs, y :: ys =>
    have := decEq x y
    have := decEqAll xs ys
    decidable_of_iff (x = y ∧ xs = ys) (by simp)
termination_by structural xs => xs

end

instance : DecidableEq Operand := decEq

/-- The absent operand. -/
def invalid : Operand := {}

/-- A register known by its name. -/
def register (name : String) (type : DataType) : Operand :=
  { mode := .register, name, type }

/-- A predicate register known by its name. -/
def predicate (name : String) : Operand := register name .pred

/-- The guard that lets its instruction run in any case. -/
def alwaysTrue : Operand :=
  { mode := .register, type := .pred, condition := .always }

/-- The guard that never lets its instruction run. -/
def alwaysFalse : Operand := { alwaysTrue with condition := .never }

def immediate (value : Int64) (type : DataType) : Operand :=
  { mode := .immediate, value, type }

def label (name : String) : Operand := { mode := .label, name }

/-- The memory cell at a register plus an offset. -/
def indirect (base : String) (offset : Int32) (type : DataType) : Operand :=
  { mode := .indirect, name := base, offset, type }

/-- The memory cell at a symbol plus an offset. -/
def address (symbol : String) (offset : Int32) (type : DataType) : Operand :=
  { mode := .address, name := symbol, offset, type }

def special (name : String) (type : DataType) : Operand :=
  { mode := .special, name, type }

/-- The one way in which an operand cannot be made. -/
inductive Error where
  /-- A vector needs at least one element, which gives it its type. -/
  | emptyVector
  deriving DecidableEq, Repr

def Error.message : Error → String
  | emptyVector => "vector operands need at least one element"

/-- The vector of some operands, with the type of the first. -/
def vector : List Operand → Except Error Operand
  | [] => .error .emptyVector
  | first :: rest => .ok { mode := .register, type := first.type, elements := first :: rest }

/-- The same operand under the opposite condition. -/
def negate (op : Operand) : Operand := { op with condition := op.condition.negate }

/-- Whether there is an operand at all. -/
def isValid (op : Operand) : Bool := op.mode != .invalid

/-- Whether the operand names a register, as a value or as the base of an address. -/
def isRegisterLike (op : Operand) : Bool := op.mode == .register || op.mode == .indirect

def isVector (op : Operand) : Bool := ! op.elements.isEmpty

def isPredicate (op : Operand) : Bool := op.type.isPredicate

/-- Whether the operand, as a guard, lets its instruction run in any case. -/
def isAlwaysTrue (op : Operand) : Bool := op.isPredicate && op.condition == .always

/-- Whether the operand, as a guard, never lets its instruction run. -/
def isAlwaysFalse (op : Operand) : Bool := op.isPredicate && op.condition == .never

/-- The elements of a vector, and otherwise the operand itself. -/
def scalars (op : Operand) : List Operand :=
  if op.elements.isEmpty then [op] else op.elements

@[simp] theorem negate_negate (op : Operand) : op.negate.negate = op := by
  cases op
  simp [negate]

theorem scalars_ne_nil (op : Operand) : op.scalars ≠ [] := by
  unfold scalars
  split
  · simp
  · next h => simpa using h

theorem scalars_of_vector {ops : List Operand} {op : Operand} (h : vector ops = .ok op) :
    op.scalars = ops := by
  cases ops with
  | nil => simp [vector] at h
  | cons first rest =>
    cases h
    rfl

end Operand

end KernelListing
