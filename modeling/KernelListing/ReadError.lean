import KernelListing.Opcode
import KernelListing.Operand.Basic

/-!
# Reading errors

What can be wrong with a piece of a listing, as the cause and the text it concerns. The wording
is in `ReadError.message` alone.
-/

namespace KernelListing

/-- Why a piece of a listing could not be read. -/
inductive ReadError where
  /-- A guard is neither a register nor the constant predicate. -/
  | invalidGuard (token : String)
  /-- No operation has this name. -/
  | unknownInstruction (name : String)
  /-- More arguments than an instruction has slots for them. -/
  | tooManyArguments (name : String) (count : Nat)
  /-- Nothing stands between two commas. -/
  | missingOperand (opcode : Opcode)
  /-- An integer was expected. -/
  | invalidInteger (literal : String)
  /-- An offset does not fit thirty-two bits. -/
  | offsetOutOfRange (offset : Int64)
  /-- An address has no base. -/
  | missingBase (inner : String)
  /-- A vector has no closing brace. -/
  | unclosedVector (token : String)
  /-- An element of a vector is no register. -/
  | invalidElement (token : String)
  /-- An address has no closing bracket. -/
  | unclosedAddress (token : String)
  /-- A token is no operand of any form. -/
  | unexpectedOperand (token : String)
  /-- An operand of the right form cannot be made. -/
  | operand (cause : Operand.Error)
  /-- A declaration ends before its type. -/
  | missingType
  /-- No type has this name. -/
  | invalidType (token : String)
  /-- A declaration ends before its name. -/
  | missingName
  /-- Something stands behind the name of a parameter. -/
  | extraToken (name : String) (token : String)
  /-- An alignment was announced and is not there. -/
  | missingAlignment
  /-- An alignment does not fit thirty-two bits. -/
  | invalidAlignment (align : Int64)
  /-- The bracket behind the name of an array is not closed. -/
  | unclosedBracket (name : String)
  /-- The size of an array does not fit thirty-two bits. -/
  | invalidSize (size : Int64)
  /-- A kernel has neither a name nor a parameter list. -/
  | missingKernelName
  /-- Something else stands in the place of a parameter. -/
  | expectedParameter (token : String)
  /-- No directive has this name. -/
  | unknownDirective (keyword : String)
  deriving DecidableEq, Repr

namespace ReadError

def message : ReadError → String
  | invalidGuard token => s!"Invalid guard predicate `@{token}`"
  | unknownInstruction name => s!"Unknown instruction `{name}`"
  | tooManyArguments name count =>
    s!"Expected at most 4 argument(s) for `{name}`, found `{count}`"
  | missingOperand opcode => "missing operand for `" ++ opcode.name ++ "`"
  | invalidInteger literal => s!"invalid integer literal: `{literal}`"
  | offsetOutOfRange offset => "offset out of range: `" ++ toString offset.toInt ++ "`"
  | missingBase inner => s!"missing base in address `[{inner}]`"
  | unclosedVector token => s!"unclosed vector `{token}`"
  | invalidElement token => s!"vector elements must be registers, found `{token}`"
  | unclosedAddress token => s!"unclosed address `{token}`"
  | unexpectedOperand token => s!"Unexpected operand `{token}`"
  | operand cause => cause.message
  | missingType => "missing type"
  | invalidType token => s!"Invalid type `{token}`"
  | missingName => "missing name"
  | extraToken name token => s!"Unexpected token after parameter `{name}`: `{token}`"
  | missingAlignment => "missing alignment"
  | invalidAlignment align => "invalid alignment `" ++ toString align.toInt ++ "`"
  | unclosedBracket name => s!"unclosed `[` in `{name}`"
  | invalidSize size => "invalid array size `" ++ toString size.toInt ++ "`"
  | missingKernelName => "missing kernel name after `.entry`"
  | expectedParameter token => s!"Expected `.param`, found `{token}`"
  | unknownDirective keyword => s!"Unknown directive `{keyword}`"

end ReadError

end KernelListing
