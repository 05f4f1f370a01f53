import RubyServer.Json.Basic
import RubyServer.Lint.Run

/-!
# Settings

The user's settings for a document, read from the `ruby` section, and the options given once at start-up. Unknown keys
are ignored and missing ones take their defaults, but a key that is given must hold a value of its type: `Settings.read?`
refuses anything else, while `Options.read` then falls back to the defaults as a whole.
-/

namespace RubyServer

/-- Which rules run, and the longest line unless set for all tools. -/
structure LintSettings where
  enabled : Bool := true
  lineLength : Nat := 120
  trailingWhitespace : Bool := true
  tabIndentation : Bool := true
  finalNewline : Bool := true
  duplicateMethod : Bool := true
  deriving DecidableEq, Repr, Inhabited

/-- How documents are formatted. -/
structure FormatSettings where
  enabled : Bool := true
  indentWidth : Nat := 2
  deriving DecidableEq, Repr, Inhabited

/-- The settings of a document. -/
structure Settings where
  lineLength : Option Nat := none
  lint : LintSettings := {}
  format : FormatSettings := {}
  deriving DecidableEq, Repr, Inhabited

/-- The options of a server, in milliseconds and bytes. -/
structure Options where
  debounce : Nat := 200
  window : Nat := 50
  maxDocumentSize : Nat := 500 * 1024 * 1024
  deriving DecidableEq, Repr, Inhabited

/-! ## Reading -/

/-- A field that takes its default when it is not given. -/
def Json.fieldOr (read? : Json → Option α) (fallback : α) : Option Json → Option α
  | none => some fallback
  | some v => read? v

/-- Reads the settings for linting. -/
def LintSettings.read? (v : Json) : Option LintSettings := do
  let keys :=
    ["enabled", "lineLength", "trailingWhitespace", "tabIndentation", "finalNewline", "duplicateMethod"]
  match ← v.fields? keys with
  | [enabled, lineLength, trailing, tabs, newline, duplicates] =>
    let enabled ← Json.fieldOr Json.bool? true enabled
    let lineLength ← Json.fieldOr Json.word64? 120 lineLength
    let trailing ← Json.fieldOr Json.bool? true trailing
    let tabs ← Json.fieldOr Json.bool? true tabs
    let newline ← Json.fieldOr Json.bool? true newline
    let duplicates ← Json.fieldOr Json.bool? true duplicates
    return ⟨enabled, lineLength, trailing, tabs, newline, duplicates⟩
  | _ => none

/-- Reads the settings for formatting. -/
def FormatSettings.read? (v : Json) : Option FormatSettings := do
  match ← v.fields? ["enabled", "indentWidth"] with
  | [enabled, indentWidth] =>
    let enabled ← Json.fieldOr Json.bool? true enabled
    let indentWidth ← Json.fieldOr Json.word64? 2 indentWidth
    return ⟨enabled, indentWidth⟩
  | _ => none

/-- A number that may also be given as `null`. -/
def Json.optionalWord64? : Json → Option (Option Nat)
  | .null => some none
  | v => v.word64?.map some

/-- Reads the settings of a document; `null` stands for the defaults. -/
def Settings.read? : Json → Option Settings
  | .null => some {}
  | v => do
    match ← v.fields? ["lineLength", "lint", "format"] with
    | [lineLength, lint, format] =>
      let lineLength ← Json.fieldOr Json.optionalWord64? none lineLength
      let lint ← Json.fieldOr LintSettings.read? {} lint
      let format ← Json.fieldOr FormatSettings.read? {} format
      return ⟨lineLength, lint, format⟩
    | _ => none

/-- Reads well-formed options. -/
def Options.read? (v : Json) : Option Options := do
  match ← v.fields? ["debounceMs", "configurationBatchWindowMs", "maxDocumentSize"] with
  | [debounce, window, maxDocumentSize] =>
    let debounce ← Json.fieldOr Json.word64? 200 debounce
    let window ← Json.fieldOr Json.word64? 50 window
    let maxDocumentSize ← Json.fieldOr Json.word64? (500 * 1024 * 1024) maxDocumentSize
    return ⟨debounce, window, maxDocumentSize⟩
  | _ => none

/-- The options to run with: the defaults where none are given or what is given is malformed. -/
def Options.read : Option Json → Options
  | none => {}
  | some v => (Options.read? v).getD {}

/-! ## Linting by settings -/

namespace Settings

/-- The longest line allowed. -/
def maxLineLength (s : Settings) : Nat := s.lineLength.getD s.lint.lineLength

/-- The rules that can be switched off, with their switches. -/
def toggles (s : Settings) : List (String × Bool) :=
  [("trailing-whitespace", s.lint.trailingWhitespace), ("tab-indentation", s.lint.tabIndentation),
    ("final-newline", s.lint.finalNewline), ("duplicate-method", s.lint.duplicateMethod)]

/-- The rules that are switched off. -/
def disabledRules (s : Settings) : List String := (s.toggles.filter fun t => !t.2).map Prod.fst

/-- How a lint run treats its rules under these settings. -/
def lintConfig (s : Settings) : LintConfig :=
  s.disabledRules.foldl LintConfig.disable { maxLineLength := s.maxLineLength }

/-- Lints a source with the standard rules, unless linting is switched off. -/
def diagnose (settings : Settings) (s : Source) : Except LintError (List Diagnostic) :=
  if settings.lint.enabled then Lint.run settings.lintConfig Rule.standard s else .ok []

end Settings

end RubyServer
