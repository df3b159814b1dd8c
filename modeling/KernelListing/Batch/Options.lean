/-!
# Options

What the arguments of a run ask for. Anything that is not an option names a file; `-` is the
name of the standard input.
-/

namespace KernelListing.Batch

/-- What a run is to do. -/
structure Options where
  /-- The files to read, in order. -/
  files : List String := []
  /-- Whether blocks are listed under canonical labels. -/
  canonical : Bool := false
  /-- Whether the dataflow summary is made before registers are declared. -/
  dataflow : Bool := false
  /-- The comment above each kernel. -/
  banner : Option String := none
  /-- Whether every stage is logged. -/
  verbose : Bool := false
  deriving DecidableEq, Repr

/-- What can be wrong with the arguments. -/
inductive UsageError where
  /-- The last argument announces a banner. -/
  | missingBanner
  /-- No option has this name. -/
  | unknownOption (argument : String)
  /-- No file is named. -/
  | noInput
  deriving DecidableEq, Repr

def UsageError.message : UsageError → String
  | missingBanner => "`--banner` expects a value"
  | unknownOption argument => s!"unknown option `{argument}`"
  | noInput => "no input files"

/-- The summary of the options, line by line. -/
def usage : List String :=
  ["Usage: ptxk [options] <file>...",
   "",
   "Options:",
   "    --canonical       rename blocks to `$BB_<file index>_<block id>`",
   "    --dfg             build the dataflow graph before printing declarations",
   "    --banner <text>   print `/* <text> */` above each kernel",
   "    -v, --verbose     log each stage (also enabled by `PTXK_VERBOSE`)"]

/-- Takes further arguments into some options. -/
def Options.parse (o : Options) : List String → Except UsageError Options
  | [] => if o.files.isEmpty then .error .noInput else .ok o
  | argument :: rest =>
    if argument = "--canonical" then parse { o with canonical := true } rest
    else if argument = "--dfg" then parse { o with dataflow := true } rest
    else if argument = "-v" ∨ argument = "--verbose" then parse { o with verbose := true } rest
    else if argument = "--banner" then
      match rest with
      | [] => .error .missingBanner
      | text :: rest => parse { o with banner := some text } rest
    else if argument ≠ "-" ∧ argument.toList.head? = some '-' then
      .error (.unknownOption argument)
    else parse { o with files := o.files ++ [argument] } rest

end KernelListing.Batch
