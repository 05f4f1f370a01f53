import RubyServer.Lint.Rule
import RubyServer.Table

/-!
# Lint runs

A run checks a source with a list of rules, in order. A rule may be disabled or have its diagnostics raised to errors;
what is lighter than the floor is dropped. A run keeps at most so many diagnostics: once one more would be kept it
stops and says so in a last warning. The result is sorted by where the diagnostics start.
-/

namespace RubyServer

/-- How a run treats one rule. -/
structure RuleConfig where
  enabled : Bool := true
  error : Bool := false
  deriving DecidableEq, Repr, Inhabited

/-- How a run treats its rules. -/
structure LintConfig where
  rules : Table String RuleConfig := ∅
  minSeverity : Severity := .hint
  maxDiagnostics : Nat := 10000
  maxLineLength : Nat := 120

namespace LintConfig

/-- Sets how a rule is treated. -/
def setRule (c : LintConfig) (id : String) (rule : RuleConfig) : LintConfig :=
  { c with rules := c.rules.insert id rule }

/-- Leaves a rule out. -/
def disable (c : LintConfig) (id : String) : LintConfig := c.setRule id { enabled := false, error := false }

/-- Raises what a rule finds to errors. -/
def setError (c : LintConfig) (id : String) : LintConfig := c.setRule id { enabled := true, error := true }

/-- How a rule is treated; rules that are not mentioned are enabled. -/
def rule (c : LintConfig) (id : String) : RuleConfig := (c.rules.get? id).getD {}

/-- What is wrong with a configuration, the first fault if there are several. -/
def fault? (c : LintConfig) : Option LintError :=
  if c.maxLineLength = 0 then some .zeroLineLength
  else if c.maxDiagnostics = 0 then some .zeroDiagnosticLimit
  else if c.rules.keys.any String.isEmpty then some .emptyRuleId
  else none

end LintConfig

namespace Lint

/-- The warning that closes a run that found too much. -/
def limitWarning (limit : Nat) : Diagnostic :=
  { severity := .warning
    concern := .custom "diagnostic-limit"
    message := s!"Diagnostic limit of {limit} reached; remaining issues are not reported."
    rule := "diagnostic-limit"
    span := .zero }

/-- Takes up what a rule has to say, one diagnostic after the other, behind what was found before. Each is raised to an
error if the rule is treated so, passed over if it is lighter than the floor, and kept if there is room. The first for
which there is none is replaced by the warning, and the rest is left alone; whether this happened comes second. -/
def takeUp (c : LintConfig) (rule : RuleConfig) :
    List Diagnostic → List Diagnostic → List Diagnostic × Bool
  | found, [] => (found, false)
  | found, d :: ds =>
    let d := if rule.error then d.escalate else d
    if c.minSeverity ≤ d.severity then
      if c.maxDiagnostics ≤ found.length then (found ++ [limitWarning c.maxDiagnostics], true)
      else takeUp c rule (found ++ [d]) ds
    else takeUp c rule found ds

/-- Goes through the rules behind what was found before. A rule that fails ends the run, and so does one that has more
to say than there is room for. -/
def collect (c : LintConfig) (s : Source) : List Diagnostic → List Rule → Except LintError (List Diagnostic)
  | found, [] => .ok found
  | found, r :: rules =>
    if (c.rule r.id).enabled then
      match r.check c.maxLineLength s with
      | .error e => .error e
      | .ok ds =>
        match takeUp c (c.rule r.id) found ds with
        | (found, true) => .ok found
        | (found, false) => collect c s found rules
    else collect c s found rules

/-- Diagnostics by where they start. -/
def sorted (found : List Diagnostic) : List Diagnostic := sortBy (fun a b => a.span.start ≤ b.span.start) found

/-- Runs rules over a source. -/
def run (c : LintConfig) (rules : List Rule) (s : Source) : Except LintError (List Diagnostic) :=
  match c.fault? with
  | some e => .error e
  | none =>
    match collect c s [] rules with
    | .error e => .error e
    | .ok found => .ok (sorted found)

end Lint

end RubyServer
