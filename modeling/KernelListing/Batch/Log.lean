/-!
# Log entries

A stage of a run reports what it did as an entry: how important it is, during what it happened
(the spans, outermost first), who says it, and a message with named values. A quiet run shows
errors only, and no spans.
-/

namespace KernelListing.Batch

/-- How important an entry is. -/
inductive Level where
  | debug | info | error
  deriving DecidableEq, Repr

/-- A named value. -/
structure Field where
  name : String
  value : String
  deriving DecidableEq, Repr

/-- Something that an entry can happen during, with the value that tells which. -/
structure Span where
  name : String
  field : Field
  deriving DecidableEq, Repr

/-- An entry of the log. -/
structure LogEntry where
  level : Level
  spans : List Span
  target : String
  message : String
  fields : List Field := []
  deriving DecidableEq, Repr

/-- The entry as a run shows it, if it does. -/
def LogEntry.shown? (verbose : Bool) (e : LogEntry) : Option LogEntry :=
  if verbose then some e
  else if e.level = .error then some { e with spans := [] }
  else none

end KernelListing.Batch
