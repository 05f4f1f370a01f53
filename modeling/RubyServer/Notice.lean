import RubyServer.Lint.Rule
import RubyServer.Position
import RubyServer.Uri

/-!
# Notices

Lint diagnostics as the editor shows them, with ranges in its own coordinates, and the notice that stands for a lint run
that failed.
-/

namespace RubyServer

/-- A diagnostic in the editor's terms. -/
structure Notice where
  range : Range
  severity : Severity
  code : String
  message : String
  deriving DecidableEq, Repr, Inhabited

namespace Notice

/-- The name under which notices are shown. -/
def origin : String := "ruby-lsp"

/-- The code of the notice for a failed run. -/
def failureCode : String := "lint-failure"

/-- A diagnostic on a text. -/
def ofDiagnostic (index : LineIndex) (d : Diagnostic) : Notice :=
  ⟨index.range d.span, d.severity, d.rule, d.advice⟩

/-- The diagnostics on a text. -/
def ofDiagnostics (t : Text) (found : List Diagnostic) : List Notice :=
  found.map (ofDiagnostic (LineIndex.ofText t))

/-- The notice for a run that failed. -/
def failure (reason : String) : Notice :=
  ⟨⟨.zero, .zero⟩, .error, failureCode, "Linting failed: " ++ reason⟩

end Notice

/-- The outcome of linting one version of a document. -/
structure LintResult where
  uri : Uri
  version : Int
  notices : List Notice
  deriving DecidableEq, Repr, Inhabited

namespace LintResult

/-- The outcome of a run that failed. -/
def failure (uri : Uri) (version : Int) (reason : String) : LintResult := ⟨uri, version, [.failure reason]⟩

/-- Whether a run failed. -/
def isFailure (r : LintResult) : Bool := r.notices.any fun n => n.code == Notice.failureCode

end LintResult

end RubyServer
