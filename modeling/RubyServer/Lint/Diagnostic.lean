import RubyServer.Span

/-!
# Lint diagnostics

What a rule has to say about a stretch of the text, how much it weighs, and which rule says it.
-/

namespace RubyServer

/-- How much a diagnostic weighs. -/
inductive Severity where
  | hint
  | convention
  | warning
  | error
  deriving DecidableEq, Repr, Inhabited

namespace Severity

/-- Severities in order, the lightest first. -/
def rank : Severity → Nat
  | .hint => 0
  | .convention => 1
  | .warning => 2
  | .error => 3

instance : LE Severity := ⟨fun a b => a.rank ≤ b.rank⟩

instance (a b : Severity) : Decidable (a ≤ b) := inferInstanceAs (Decidable (a.rank ≤ b.rank))

/-- The name of a severity. -/
def name : Severity → String
  | .hint => "hint"
  | .convention => "convention"
  | .warning => "warning"
  | .error => "error"

/-- The severity of a name. -/
def ofName? : String → Option Severity
  | "hint" => some .hint
  | "convention" => some .convention
  | "warning" => some .warning
  | "error" => some .error
  | _ => none

end Severity

/-- What a diagnostic is about. -/
inductive Concern where
  | malformed
  | lineLength
  | trailingWhitespace
  | tabIndentation
  | finalNewline
  | duplicateMethod
  | custom (name : String)
  deriving DecidableEq, Repr, Inhabited

/-- The name of a concern in reports. -/
def Concern.name : Concern → String
  | .malformed => "Syntax"
  | .lineLength => "LineLength"
  | .trailingWhitespace => "TrailingWhitespace"
  | .tabIndentation => "TabIndentation"
  | .finalNewline => "FinalNewline"
  | .duplicateMethod => "DuplicateMethod"
  | .custom name => "Custom:" ++ name

/-- One remark of a rule. -/
structure Diagnostic where
  severity : Severity
  concern : Concern
  message : String
  rule : String
  span : Span
  suggestion : Option String := none
  deriving DecidableEq, Repr, Inhabited

namespace Diagnostic

/-- The row a diagnostic starts on. -/
def row (d : Diagnostic) : Nat := d.span.start.row

/-- The diagnostic as an error. -/
def escalate (d : Diagnostic) : Diagnostic := { d with severity := .error }

/-- The message, followed by the suggestion in parentheses. -/
def advice (d : Diagnostic) : String :=
  match d.suggestion with
  | none => d.message
  | some suggestion => d.message ++ " (" ++ suggestion ++ ")"

/-- A diagnostic on one line, with the number of the line it starts on. -/
def display (d : Diagnostic) : String :=
  let line := ordinal d.span.start.row
  let rule := d.rule
  let severity := d.severity.name
  let advice := d.advice
  s!"line {line}: [{rule}] {severity}: {advice}"

end Diagnostic

end RubyServer
