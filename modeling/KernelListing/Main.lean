import KernelListing.Batch.Run

/-!
# The command line

Reads what the arguments name, hands it to `Batch.run`, and writes out the report.
-/

namespace KernelListing.Main

open Batch

/-- The contents of the files that exist among those named by some arguments. -/
def readFiles (arguments : List String) : IO (List (String × ByteArray)) :=
  arguments.eraseDups.filterMapM fun (path : String) => do
    try
      return some (path, ← IO.FS.readBinFile path)
    catch _ =>
      return none

/-- The standard input, if some arguments ask for it. -/
def readStandard (arguments : List String) : IO ByteArray := do
  if "-" ∈ arguments then
    let stream ← IO.getStdin
    stream.readBinToEnd
  else
    return .empty

/-- The arguments that a run reads as files; wrong arguments name none. -/
def namedFiles (arguments : List String) : List String :=
  match Options.parse {} arguments with
  | .ok o => o.files
  | .error _ => []

end KernelListing.Main

/-- The program: a run with the arguments, the environment and the files that it finds. -/
def main (arguments : List String) : IO UInt32 := do
  let verbose := (← IO.getEnv "PTXK_VERBOSE").isSome
  let named := KernelListing.Main.namedFiles arguments
  let files ← KernelListing.Main.readFiles named
  let standard ← KernelListing.Main.readStandard named
  let report := KernelListing.Batch.run arguments verbose
    { file? := fun path => files.lookup path, standard }
  IO.print report.output
  IO.eprint report.diagnostics
  return report.exitCode.toUInt32
