/-
# What is reported about a source file

A `Report` names a place and says something about it. In a `SourceFile` it becomes a `Diagnostic`, which also has a
line and a column. A report past the end of the text is moved to its last byte.
-/
import BasicCompiler.Text.LineIndex

namespace BasicCompiler

inductive Severity where
  | error
  | warning
  | note
deriving DecidableEq

def Severity.text : Severity → String
  | .error => "error"
  | .warning => "warning"
  | .note => "note"

structure Report where
  severity : Severity
  span : Span
  message : String

def Report.isError (r : Report) : Bool := r.severity = .error

/-- What a stage made of its input, if anything, and what it reported. -/
structure Outcome (α : Type) where
  result : Option α
  reports : List Report

namespace Outcome

variable {α β : Type}

def hasErrors (o : Outcome α) : Bool := o.reports.any (·.isError)

def accepted? (o : Outcome α) : Option α := if o.hasErrors then none else o.result

/-- Goes on with a result that was made without errors. -/
def andThen (o : Outcome α) (next : α → Outcome β) : Outcome β :=
  match o.accepted? with
  | none => ⟨none, o.reports⟩
  | some a => ⟨(next a).result, o.reports ++ (next a).reports⟩

end Outcome

/-- A source text under the name it is reported with. -/
structure SourceFile where
  name : String
  text : String

structure Diagnostic where
  file : String
  location : Location
  severity : Severity
  message : String
  span : Span

namespace SourceFile

def clamp (file : SourceFile) (span : Span) : Span :=
  let length := file.text.utf8ByteSize
  if length ≤ span.lo then ⟨length - 1, length⟩ else span

def location (file : SourceFile) (span : Span) : Location :=
  (LineIndex.ofText file.text).location (file.clamp span).lo

def diagnose (file : SourceFile) (report : Report) : Diagnostic :=
  { file := file.name
    location := file.location report.span
    severity := report.severity
    message := report.message
    span := file.clamp report.span }

/-- The line that starts at byte `start`, without its newline. -/
def lineFrom (file : SourceFile) (start : Nat) : List Char :=
  go start file.text.toList
where
  /-- Passes over the bytes before the line. -/
  go : Nat → List Char → List Char
    | 0, chars => chars.takeWhile (· != '\n')
    | _ + 1, [] => []
    | n + 1, c :: rest => go (n + 1 - c.utf8Size) rest

end SourceFile

namespace Diagnostic

def isError (d : Diagnostic) : Bool := d.severity = .error

def text (d : Diagnostic) : String :=
  s!"{d.file}:{d.location.line}:{d.location.column}: " ++ d.severity.text ++ ": " ++ d.message

/-- The diagnostic and, unless the file is empty, its source line with a caret under
each byte of the span that lies on the line, at least one. -/
def echo (file : SourceFile) (d : Diagnostic) : String :=
  if file.text.isEmpty then d.text ++ "\n"
  else
    let start := (LineIndex.ofText file.text).lineStart d.location.line
    let line := file.lineFrom start
    let lineEnd := start + byteLength line
    let width := max 1 (min d.span.hi lineEnd - d.span.lo)
    d.text ++ "\n" ++ String.ofList line ++ "\n" ++
      String.ofList (List.replicate (d.span.lo - start) ' ' ++ List.replicate width '^') ++ "\n"

end Diagnostic

/-- What has been reported about a file, in order. -/
structure DiagnosticLog where
  file : SourceFile
  entries : List Diagnostic

namespace DiagnosticLog

def empty (file : SourceFile) : DiagnosticLog := ⟨file, []⟩

def add (log : DiagnosticLog) (report : Report) : DiagnosticLog :=
  { log with entries := log.entries ++ [log.file.diagnose report] }

def errorCount (log : DiagnosticLog) : Nat := (log.entries.filter (·.isError)).length

def hasErrors (log : DiagnosticLog) : Bool := log.entries.any (·.isError)

end DiagnosticLog

end BasicCompiler
