import KernelListing.FlowGraph.Basic

/-!
# Structural errors

What can be wrong with the statements of a kernel taken together, with the position of the
offending statement counted from zero. A `fault` of the graph is passed on as it is.
-/

namespace KernelListing

/-- Why statements have no control flow graph. -/
inductive BuildError where
  /-- Two labels have the same name; the position is that of the second. -/
  | duplicateLabel (label : String) (statement : Nat)
  /-- There is more than one `exit`; the position is that of the second. -/
  | duplicateExit (statement : Nat)
  /-- There is no `exit`. -/
  | missingExit
  /-- A branch goes to a label that no instruction stands behind. -/
  | undefinedLabel (label : String)
  /-- Control flow that graphs cannot express. -/
  | unsupportedControlFlow (opcode : Opcode) (statement : Nat)
  /-- The graph refused an operation. -/
  | fault (cause : FlowGraph.Fault)
  deriving DecidableEq, Repr

namespace BuildError

def message : BuildError → String
  | duplicateLabel label statement =>
    s!"duplicate blocks with label `{label}` (statement {statement})"
  | duplicateExit statement => s!"duplicate exit instruction (statement {statement})"
  | missingExit => "no exit point from the kernel found"
  | undefinedLabel label => s!"undefined label `{label}`"
  | unsupportedControlFlow opcode statement =>
    "unhandled control flow instruction `" ++ opcode.name ++ s!"` (statement {statement})"
  | fault cause => cause.message

end BuildError

end KernelListing
