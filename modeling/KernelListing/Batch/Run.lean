import KernelListing.Batch.LogLine
import KernelListing.Batch.Options
import KernelListing.Kernel.Canonical
import KernelListing.Kernel.Listing
import KernelListing.Source

/-!
# Runs

A run takes each of its files from text to listing. A file that cannot be read, has errors or
describes no kernel costs the run nothing but that file's listing and a clean exit code. The
position of a file among all files is the id of its kernel.
-/

namespace KernelListing.Batch

/-- Why a file has no listing. -/
inductive FileError where
  /-- There is no such file. -/
  | absent
  /-- The file holds no text. -/
  | notText
  /-- Reading the text met errors. -/
  | reading (count : Nat)
  /-- The statements describe no kernel. -/
  | build (cause : BuildError)
  deriving DecidableEq, Repr

def FileError.message : FileError → String
  | absent => "io error: No such file or directory (os error 2)"
  | notText => "io error: stream did not contain valid UTF-8"
  | reading count => s!"failed to tokenize kernel ({count} error(s))"
  | build cause => "invalid kernel: " ++ cause.message

/-- What comes of a file. -/
structure FileReport where
  /-- The listing, empty if there is none. -/
  listing : String
  log : List LogEntry
  failed : Bool
  deriving DecidableEq, Repr

def fileSpan (path : String) : Span := ⟨"file", ⟨"path", path⟩⟩

def kernelSpan (k : Kernel) : Span := ⟨"kernel", ⟨"name", k.name⟩⟩

/-- The report of an error. -/
def errorEntry (path message : String) : LogEntry :=
  { level := .error, spans := [fileSpan path], target := "ptxk", message }

/-- The report of a failed file, whose log starts with some errors. -/
def FileReport.failure (path : String) (errors : List ReadError) (e : FileError) : FileReport where
  listing := ""
  log := (errors.map ReadError.message ++ [e.message]).map (errorEntry path)
  failed := true

/-- The reports of the making of a kernel. -/
def buildEntries (path : String) (k : Kernel) : List LogEntry :=
  let blocks := ⟨"blocks", toString k.graph.size⟩
  let registers := toString k.numbering.size
  [{ level := .debug, spans := [fileSpan path, kernelSpan k], target := "ptxk_kernel::build",
     message := "built control flow graph",
     fields := [blocks, ⟨"edges", toString k.graph.edges.length⟩] },
   { level := .debug, spans := [fileSpan path, kernelSpan k], target := "ptxk_kernel::regalloc",
     message := "assigned registers",
     fields := [⟨"assigned", registers⟩, ⟨"total", registers⟩] },
   { level := .info, spans := [fileSpan path], target := "ptxk", message := "built kernel",
     fields := [⟨"kernel", k.name⟩, blocks, ⟨"registers", registers⟩] }]

/-- The report of the making of a dataflow summary. -/
def dataflowEntry (path : String) (k : Kernel) : LogEntry :=
  { level := .debug, spans := [fileSpan path], target := "ptxk_kernel::dfg",
    message := "built dataflow graph", fields := [⟨"blocks", toString k.graph.size⟩] }

/-- The report of the canonicalizing of a kernel. -/
def canonicalEntry (path : String) (k : Kernel) (kernelId : Nat) : LogEntry :=
  { level := .debug, spans := [fileSpan path], target := "ptxk_kernel::write",
    message := "canonicalized block labels",
    fields := [⟨"kernel", k.name⟩, ⟨"kernel_id", toString kernelId⟩,
      ⟨"renamed", toString (k.renamedCount kernelId)⟩] }

/-- The report of the declaring of registers. -/
def declarationsEntry (path : String) (k : Kernel) : LogEntry :=
  { level := .debug, spans := [fileSpan path], target := "ptxk_kernel",
    message := "collected register declarations",
    fields := [⟨"with_dfg", toString k.hasDataflow⟩,
      ⟨"count", toString k.registerDeclarations.length⟩] }

/-- A kernel as the options ask for it. -/
def prepare (o : Options) (kernelId : Nat) (k : Kernel) : Kernel :=
  let k := if o.dataflow then k.withDataflow else k
  if o.canonical then k.canonicalize kernelId else k

/-- The report of a kernel that was built. -/
def FileReport.success (o : Options) (path : String) (kernelId : Nat) (k : Kernel) :
    FileReport where
  listing := (prepare o kernelId k).listing o.banner
  log := buildEntries path k ++
    (if o.dataflow then [dataflowEntry path k] else []) ++
    (if o.canonical then [canonicalEntry path k kernelId] else []) ++
    [declarationsEntry path (prepare o kernelId k)]
  failed := false

/-- Takes a file, given its contents if there is one, to its report. -/
def processFile (o : Options) (path : String) (contents : Option ByteArray) (kernelId : Nat) :
    FileReport :=
  match contents with
  | none => .failure path [] .absent
  | some bytes =>
    match String.fromUTF8? bytes with
    | none => .failure path [] .notText
    | some text =>
      let reading := Source.read text
      if reading.errors.isEmpty then
        match Kernel.ofStatements reading.statements with
        | .ok k => .success o path kernelId k
        | .error e => .failure path [] (.build e)
      else .failure path reading.errors (.reading reading.errors.length)

/-- What a run finds outside: the contents of each file that exists, what stands on the standard
input, and how the entries of its log are to be written. -/
structure Inputs where
  file? : String → Option ByteArray
  standard : ByteArray
  render : LogEntry → String := LogEntry.text

/-- The contents of the files of a run. The standard input is empty once it has been read. -/
def contentsOf (inputs : Inputs) : List String → List (Option ByteArray)
  | [] => []
  | path :: rest =>
    if path = "-" then
      some inputs.standard :: contentsOf { inputs with standard := .empty } rest
    else inputs.file? path :: contentsOf inputs rest

/-- The reports of the files of a run. -/
def fileReports (o : Options) (inputs : Inputs) : List FileReport :=
  ((o.files.zip (contentsOf inputs o.files)).zipIdx).map fun ((path, contents), kernelId) =>
    processFile o path contents kernelId

/-- What a run leaves behind. -/
structure Report where
  /-- The text on the standard output. -/
  output : String
  /-- The text on the standard error output. -/
  diagnostics : String
  exitCode : UInt8
  deriving DecidableEq, Repr

/-- The report of a run whose arguments are wrong. -/
def Report.ofUsageError (e : UsageError) : Report where
  output := ""
  diagnostics := Text.ofLines (["error: " ++ e.message, ""] ++ usage)
  exitCode := 2

/-- The report of a run whose log is written by `render`, from the reports of its files. -/
def Report.ofFiles (render : LogEntry → String) (verbose : Bool) (reports : List FileReport) :
    Report where
  output := String.join (reports.map (·.listing))
  diagnostics := Text.ofLines
    (((reports.flatMap (·.log)).filterMap (·.shown? verbose)).map render)
  exitCode := if reports.any (·.failed) then 1 else 0

/-- A run with some arguments; `verbose` is the wish of the environment. -/
def run (arguments : List String) (verbose : Bool) (inputs : Inputs) : Report :=
  match Options.parse { verbose } arguments with
  | .error e => .ofUsageError e
  | .ok o => .ofFiles inputs.render o.verbose (fileReports o inputs)

end KernelListing.Batch
