import RubyServer.Lint.Diagnostic
import RubyServer.Literal

/-!
# Lint rules

A rule has an id and checks a source. The six rules of the server: what the parser could not understand, long lines,
trailing whitespace, tabs in indentation, a missing final newline, and methods defined twice in one scope. Lines here
are without terminators, and columns are bytes.
-/

namespace RubyServer

/-- Why a lint run gives no diagnostics. -/
inductive LintError where
  | zeroLineLength
  | zeroDiagnosticLimit
  | emptyRuleId
  | rule (id : String) (message : String)
  deriving DecidableEq, Repr

namespace LintError

/-- Whether the configuration, rather than a rule, is at fault. -/
def isInvalidConfig : LintError → Bool
  | .rule _ _ => false
  | _ => true

/-- The wording of an error. -/
def message : LintError → String
  | .zeroLineLength => "invalid lint configuration: maximum line length must be at least 1"
  | .zeroDiagnosticLimit => "invalid lint configuration: maximum diagnostics must be at least 1"
  | .emptyRuleId => "invalid lint configuration: Empty rule ID not allowed"
  | .rule id message => s!"rule '{id}' failed: {message}"

end LintError

/-- A rule: given the longest line allowed and a source, it finds diagnostics or fails. -/
structure Rule where
  id : String
  description : String
  check : Nat → Source → Except LintError (List Diagnostic)

namespace Rule

/-! ## What the parser could not understand -/

/-- The diagnostic for a syntax error. A missing token comes with the advice to insert it. -/
def ofSyntaxError (e : SyntaxError) : Diagnostic :=
  { severity := .error
    concern := .malformed
    message := e.message
    rule := "syntax"
    span := e.span
    suggestion :=
      match e.kind with
      | .missing token => some s!"insert `{token}`"
      | _ => none }

/-- Reports every syntax error. -/
def malformed : Rule where
  id := "syntax"
  description := "Report source the parser could not understand"
  check _ s := .ok (s.errors.map ofSyntaxError)

/-! ## Rules on lines -/

/-- Checks every line by itself, given its row. -/
def onLines (check : Nat → Text → Option Diagnostic) (s : Source) : List Diagnostic :=
  s.text.lines.zipIdx.filterMap fun (line, row) => check row line

/-- A line with more characters than allowed; the span covers what is too much. -/
def longLine? (limit row : Nat) (line : Text) : Option Diagnostic :=
  let length := line.length
  if length ≤ limit then none
  else
    some
      { severity := .convention
        concern := .lineLength
        message := s!"Line is too long. [{length}/{limit}]"
        rule := "line-length"
        span := .onRow row (Text.byteSize (line.take limit)) (Text.byteSize line) }

/-- Reports lines longer than allowed. -/
def lineLength : Rule where
  id := "line-length"
  description := "Check that lines do not exceed the configured length"
  check limit s := .ok (onLines (longLine? limit) s)

/-- A line that ends in spaces or tabs and is not content of a literal. -/
def trailing? (literals : List Span) (row : Nat) (line : Text) : Option Diagnostic :=
  if Source.isOpenRow literals row then none
  else
    let trimmed := Text.byteSize (Text.trimPadding line)
    if trimmed < Text.byteSize line then
      some
        { severity := .convention
          concern := .trailingWhitespace
          message := "Trailing whitespace detected."
          rule := "trailing-whitespace"
          span := .onRow row trimmed (Text.byteSize line)
          suggestion := some "remove trailing whitespace" }
    else none

/-- Reports spaces and tabs at the end of lines. -/
def trailingWhitespace : Rule where
  id := "trailing-whitespace"
  description := "Check for whitespace at the end of lines"
  check _ s := .ok (onLines (trailing? s.literalSpans) s)

/-- A line with a tab among its leading blanks that no literal goes on after. -/
def tabbed? (literals : List Span) (row : Nat) (line : Text) : Option Diagnostic :=
  if Source.isOpenRow literals row then none
  else if (Text.indentation line).any (· == '\t') then
    some
      { severity := .convention
        concern := .tabIndentation
        message := "Tab detected in indentation."
        rule := "tab-indentation"
        span := .onRow row 0 (Text.byteSize (Text.indentation line)) }
  else none

/-- Reports tabs in indentation. -/
def tabIndentation : Rule where
  id := "tab-indentation"
  description := "Check that indentation uses spaces"
  check _ s := .ok (onLines (tabbed? s.literalSpans) s)

/-- The diagnostic at the end of a text that does not end in a line feed. -/
def unfinished (t : Text) : List Diagnostic :=
  if t.isEmpty || t.endsWith '\n' then []
  else
    let row := t.lines.length - 1
    let column := Text.byteSize (t.lines.getLast?.getD [])
    [{ severity := .convention
       concern := .finalNewline
       message := "Final newline missing."
       rule := "final-newline"
       span := .onRow row column column }]

/-- Reports a missing line feed at the end of the text. -/
def finalNewline : Rule where
  id := "final-newline"
  description := "Check that the file ends with a newline"
  check _ s := .ok (unfinished s.text)

/-! ## Methods defined twice -/

/-- The kinds of node whose children are the definitions of one scope. -/
def scopeKinds : List String := ["program", "body_statement"]

/-- The name under which a definition is known in its scope, and the node of its name. Methods of an object are known
by the object's text, a dot and their name. -/
def definition? (s : Source) (n : Node) : Option (String × Node) :=
  match n.kind with
  | "method" => (n.child? "name").map fun name => (String.ofList (s.nodeText name), name)
  | "singleton_method" => (n.child? "name").map fun name =>
      let object :=
        match n.child? "object" with
        | some object => String.ofList (s.nodeText object)
        | none => "self"
      (object ++ "." ++ String.ofList (s.nodeText name), name)
  | _ => none

/-- The definitions among the named children of a scope. -/
def definitions (s : Source) (scope : Node) : List (String × Span) :=
  (scope.namedChildren.filterMap (definition? s)).map fun (key, name) => (key, s.span name)

/-- The diagnostic for a definition of a name that was first defined on an earlier row. -/
def redefinition (key : String) (first : Nat) (span : Span) : Diagnostic :=
  let line := first + 1
  { severity := .warning
    concern := .duplicateMethod
    message := s!"Method `{key}` is defined more than once in this scope (first defined on line {line})."
    rule := "duplicate-method"
    span := span }

/-- The definitions that repeat a name; `seen` holds the names so far with the row each was first defined on. -/
def redefinitions (seen : List (String × Nat)) : List (String × Span) → List Diagnostic
  | [] => []
  | (key, span) :: rest =>
    match seen.lookup key with
    | some first => redefinition key first span :: redefinitions seen rest
    | none => redefinitions ((key, span.start.row) :: seen) rest

/-- What the rule finds at one node. -/
def redefinitionsIn (s : Source) (n : Node) : List Diagnostic :=
  if scopeKinds.contains n.kind then redefinitions [] (definitions s n) else []

/-- Reports methods defined more than once in the same scope. -/
def duplicateMethod : Rule where
  id := "duplicate-method"
  description := "Check for methods redefined in the same class, module or file"
  check _ s :=
    match s.root? with
    | none => .ok []
    | some root =>
      .ok (Cursor.walk (fun found c => (.descend, (redefinitionsIn s c.node).reverse ++ found)) root []).reverse

theorem check_duplicateMethod (limit : Nat) (s : Source) : duplicateMethod.check limit s =
    .ok (Cursor.walk (fun found c => (.descend, (redefinitionsIn s c.node).reverse ++ found)) s.root []).reverse := by
  simp only [duplicateMethod, Source.root?, Source.root]
  cases s.parse <;> rfl

/-! ## The rule set -/

/-- The rules of the server, in the order they run. -/
def standard : List Rule :=
  [malformed, lineLength, trailingWhitespace, tabIndentation, finalNewline, duplicateMethod]

end Rule

end RubyServer
