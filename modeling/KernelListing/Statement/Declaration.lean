import KernelListing.Operand.Reader
import KernelListing.Reading

/-!
# Reading declarations

A statement that starts with a dot is a directive: it declares the kernel with its parameters,
a parameter, or a variable. Declarations of registers follow from the instructions, and the
directives of a whole module belong to no kernel; both are passed over.
-/

namespace KernelListing.Statement

open Text

/-- Reads a type with its dot. -/
def readType : Option (List Char) → Except ReadError DataType
  | none => .error .missingType
  | some ('.' :: name) =>
    match DataType.ofName? (String.ofList name) with
    | some t => .ok t
    | none => .error (.invalidType (String.ofList ('.' :: name)))
  | some token => .error (.invalidType (String.ofList token))

/-- Reads the name of a parameter or variable, without the commas behind it. -/
def readName (token : Option (List Char)) : Except ReadError (List Char) :=
  match token.map (dropEndWhile (· == ',')) with
  | some (c :: cs) => .ok (c :: cs)
  | _ => .error .missingName

/-- Reads a parameter behind its keyword. -/
def readParameter (cs : List Char) : Except ReadError Parameter := do
  let tokens := words cs
  let type ← readType tokens[0]?
  let name ← readName tokens[1]?
  match tokens[2]? with
  | some extra => throw (.extraToken (String.ofList name) (String.ofList extra))
  | none => return { name := String.ofList name, type }

/-- A count in the width that declarations have for it. -/
def toCount? (n : Int64) : Option UInt32 :=
  if 0 ≤ n.toInt ∧ n.toInt < UInt32.size then some (UInt32.ofNat n.toInt.toNat) else none

/-- Reads the alignment in front of a declaration, if it is announced, and gives the tokens
behind it. -/
def readAlignment : List (List Char) → Except ReadError (Option UInt32 × List (List Char))
  | [] => .ok (none, [])
  | token :: rest =>
    if String.ofList token = ".align" then
      match rest with
      | [] => .error .missingAlignment
      | literal :: rest => do
        let n ← Operand.readInteger literal
        match toCount? n with
        | some align => return (some align, rest)
        | none => throw (.invalidAlignment n)
    else .ok (none, token :: rest)

/-- Reads the name of a variable together with the size that may stand in brackets behind
it. -/
def readSizedName (cs : List Char) : Except ReadError (List Char × Option UInt32) :=
  match cutAt? (· == '[') cs with
  | none => .ok (cs, none)
  | some (name, rest) =>
    match [']'].isSuffixOf? rest with
    | none => .error (.unclosedBracket (String.ofList name))
    | some literal => do
      let n ← Operand.readInteger literal
      match toCount? n with
      | some size => return (name, some size)
      | none => throw (.invalidSize n)

/-- Reads a variable behind the keyword of its space. -/
def readVariable (space : StateSpace) (cs : List Char) : Except ReadError Variable := do
  let (align, tokens) ← readAlignment (words cs)
  let type ← readType tokens[0]?
  let (name, elements) ← readSizedName (← readName tokens[1]?)
  return { space, name := String.ofList name, type, align, elements }

/-- Reads a parameter within the header of a kernel, keyword included. -/
def readHeaderParameter (cs : List Char) : Except ReadError Statement :=
  match (".param".toList).isPrefixOf? cs with
  | some rest => (readParameter rest).map .parameter
  | none => .error (.expectedParameter (String.ofList cs))

/-- Reads the parameters of a header, which commas separate. Blank ones are passed over. -/
def readHeaderParameters (cs : List Char) : Reading :=
  let pieces := ((split (· == ',') cs).map trim).filter (! ·.isEmpty)
  .join (pieces.map fun piece => .ofExcept (readHeaderParameter piece))

/-- Reads the header of a kernel behind its keyword: a name, a parameter list in parentheses,
or both. -/
def readHeader (cs : List Char) : Reading :=
  match cutAt? (· == '(') cs with
  | some (before, after) =>
    let name := trim before
    (if name.isEmpty then {} else .statement (.entry (String.ofList name))) ++
      readHeaderParameters (dropEndWhile (· == ')') (trimEnd after))
  | none =>
    let name := trim cs
    if name.isEmpty then .error .missingKernelName
    else .statement (.entry (String.ofList name))

/-- The directives that declare nothing of interest. -/
def ignoredDirectives : List String := [".reg", ".version", ".target", ".address_size"]

def readDirective (cs : List Char) : Reading :=
  let parts := cutAt isBlank cs
  let keyword := String.ofList parts.1
  if keyword = ".entry" then readHeader parts.2
  else if keyword = ".param" then .ofExcept ((readParameter parts.2).map .parameter)
  else if keyword = ".local" then
    .ofExcept ((readVariable .localMemory parts.2).map .localVariable)
  else if keyword = ".shared" then
    .ofExcept ((readVariable .sharedMemory parts.2).map .sharedVariable)
  else if keyword ∈ ignoredDirectives then {}
  else .error (.unknownDirective keyword)

end KernelListing.Statement
