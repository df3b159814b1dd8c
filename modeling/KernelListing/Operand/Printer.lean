import KernelListing.Operand.Basic

/-!
# The text of an operand

A register is written by its name, or by its number behind `%p` or `%r` once the name is gone.
A vector stands in braces, an address in brackets with its offset, unless that is zero, behind
the base.
-/

namespace KernelListing.Operand

/-- The text of a register: its name, or its kind and number. -/
def registerText (op : Operand) : String :=
  if op.name.isEmpty then
    (if op.isPredicate then "%p" else "%r") ++ toString op.number
  else op.name

/-- The text of an offset behind a base. A minus sign is part of the number, a plus sign is
not. -/
def offsetText (offset : Int32) : String :=
  if offset = 0 then ""
  else if offset < 0 then toString offset.toInt
  else "+" ++ toString offset.toInt

mutual

def text : Operand → String
  | op@⟨mode, _, _, _, elements, _, _, _⟩ =>
    match mode with
    | .register =>
      if elements.isEmpty then op.registerText
      else "\x7b" ++ ", ".intercalate (texts elements) ++ "\x7d"
    | .indirect => "[" ++ op.registerText ++ offsetText op.offset ++ "]"
    | .address => "[" ++ op.name ++ offsetText op.offset ++ "]"
    | .immediate => toString op.value.toInt
    | .label => op.name
    | .special => op.name
    | .invalid => ""
termination_by structural op => op

def texts : List Operand → List String
  | [] => []
  | op :: ops => text op :: texts ops
termination_by structural ops => ops

end

theorem texts_eq_map (ops : List Operand) : texts ops = ops.map text := by
  induction ops with
  | nil => rfl
  | cons op ops ih => simp [texts, ih]

/-- A scalar in register mode is written as a register. -/
theorem text_scalar {op : Operand} (hm : op.mode = .register) (he : op.elements = []) :
    op.text = op.registerText := by
  obtain ⟨⟩ := op
  subst hm he
  rfl

/-- A label is written as its name. -/
theorem text_label {op : Operand} (hm : op.mode = .label) : op.text = op.name := by
  obtain ⟨⟩ := op
  subst hm
  rfl

/-- The text of a guard in front of its instruction, with the space behind it. A guard that
always holds has none. -/
def guardText (op : Operand) : String :=
  if ! op.isValid then ""
  else
    match op.condition with
    | .always => ""
    | .never => "@!pt "
    | .ifTrue => "@" ++ op.registerText ++ " "
    | .ifFalse => "@!" ++ op.registerText ++ " "

end KernelListing.Operand
