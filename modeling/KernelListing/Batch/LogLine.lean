import KernelListing.Batch.Log
import KernelListing.Text.Control

/-!
# Log entries as lines

How the terminal is given an entry of the log, unless a run is told to write its entries
otherwise. A message may quote its input, so it is written with the controls escaped; the values
of spans and fields are written as they are.
-/

namespace KernelListing.Batch

def Level.name : Level → String
  | debug => "DEBUG"
  | info => "INFO"
  | error => "ERROR"

def Field.text (f : Field) : String := f.name ++ "=" ++ f.value

def Span.text (s : Span) : String := s.name ++ "\x7b" ++ s.field.text ++ "\x7d"

def LogEntry.text (e : LogEntry) : String :=
  e.level.name ++ " " ++
    (if e.spans.isEmpty then "" else ":".intercalate (e.spans.map Span.text) ++ ": ") ++
    e.target ++ ": " ++ Text.escapeControls e.message ++
    String.join (e.fields.map fun f => " " ++ f.text)

end KernelListing.Batch
