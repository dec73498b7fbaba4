import FrontEnd.Report.Basic
import FrontEnd.Source.Lines

/-!
The queue of reports. Within a statement only the first report is accepted; repeated reports and
those past the ceiling are dropped, and the first that is past the ceiling leaves a notice.
-/

namespace FrontEnd

structure QueueConfig where
  /-- Reports accepted before the ceiling; 0 for no ceiling. -/
  errorLimit : Nat
  /-- Drop a report with the code and position of one that is queued. -/
  deduplicate : Bool
  deriving DecidableEq, Repr

namespace QueueConfig

def standard : QueueConfig := ⟨20, true⟩

def unlimited : QueueConfig := ⟨0, false⟩

end QueueConfig

structure Queue where
  reports : Array Report
  /-- Reports accepted since the last flush. -/
  errorCount : Nat
  /-- A report was accepted in this statement. -/
  latched : Bool
  /-- Reports that the latch held back. -/
  suppressed : Nat
  /-- A report was dropped for the ceiling; nothing is accepted any more. -/
  truncated : Bool
  config : QueueConfig
  deriving DecidableEq, Repr

namespace Queue

def withConfig (config : QueueConfig) : Queue :=
  { reports := #[], errorCount := 0, latched := false, suppressed := 0, truncated := false, config }

/-- What whoever reports is told: an error exists, whether this report is kept or not. -/
def receipt : String := "error(s) emitted"

/-- Enters a new statement. -/
def beginStatement (q : Queue) : Queue := { q with latched := false }

def limitReached (q : Queue) : Bool :=
  0 < q.config.errorLimit && q.config.errorLimit ≤ q.errorCount

def hasErrors (q : Queue) : Bool := 0 < q.errorCount

def isDuplicate (q : Queue) (r : Report) : Bool :=
  q.reports.any fun s => s.code == r.code && s.line == r.line && s.col == r.col

/-- The notice that the ceiling was hit. -/
def tooManyErrors (limit line col : Nat) : Report :=
  { code := .tooManyErrors
    message := s!"aborting due to {limit} previous errors"
    labels := []
    notes := ["raise `error_limit` to see more"]
    line, col }

/-- Adds a report that has its position. -/
def add (q : Queue) (r : Report) : Queue :=
  if q.truncated then q
  else if q.latched then { q with suppressed := q.suppressed + 1 }
  else if q.config.deduplicate && q.isDuplicate r then q
  else if q.limitReached then
    { q with
      truncated := true
      reports := q.reports.push (tooManyErrors q.config.errorLimit r.line r.col) }
  else
    { q with latched := true, errorCount := q.errorCount + 1, reports := q.reports.push r }

def emit (q : Queue) (r : Report) (line col : Nat) : Queue := q.add (r.placed line col)

/-- Adds a lexical error. Such errors may belong to a later statement than the latch, so the
latch does not hold them back; they set it all the same. -/
def emitLexical (q : Queue) (r : Report) (line col : Nat) : Queue :=
  let after := q.beginStatement.emit r line col
  { after with latched := after.latched || q.latched }

/-- Adds a report at the start of its primary label. -/
def emitSpanned (q : Queue) (r : Report) (lines : Lines) : Except Fault Queue :=
  match r.labels.head? with
  | some label => do
    let (line, col) ← lines.locate label.span.start
    return q.emit r line col
  | none => .ok (q.emit r 1 1)

/-- Takes all reports in reading order; those at one place keep their order. Whether the queue
was truncated stays known. -/
def flush (q : Queue) : List Report × Queue :=
  (q.reports.toList.mergeSort Report.before,
    { q with reports := #[], errorCount := 0, suppressed := 0, latched := false })

end Queue

end FrontEnd
