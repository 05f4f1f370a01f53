import RubyServer.Literal
import RubyServer.Position
import RubyServer.Settings

/-!
# Formatting

Whitespace only: blanks at the end of rows go, tabs in indentation become spaces, and the text ends with one line feed.
What is inside a literal over several rows stays as it is, and so does the carriage return at the end of a row.
-/

namespace RubyServer

/-- A replacement of a stretch of text. -/
structure TextEdit where
  range : Range
  newText : Text
  deriving DecidableEq, Repr

namespace Format

/-- The line with each tab of its indentation replaced by `width` spaces. -/
def expand (width : Nat) (line : Text) : Text :=
  (Text.indentation line).flatMap (fun c => if c = '\t' then List.replicate width ' ' else [' '])
    ++ line.dropWhile isPadding

/-- The line part of a row and its carriage return, if it ends in one. -/
def splitReturn (row : Text) : Text × Text := if row.endsWith '\r' then (row.dropLast, ['\r']) else (row, [])

/-- One row, formatted. -/
def row (literals : List Span) (width : Nat) (raw : Text) (n : Nat) : Text :=
  let (line, ending) := splitReturn raw
  let line := if Source.isOpenRow literals n then line else Text.trimPadding line
  let line := if Source.isContinuedRow literals n then line else expand width line
  line ++ ending

/-- Whether a row holds nothing but carriage returns. -/
def isVoid (row : Text) : Bool := row.all (· == '\r')

/-- Rows without the void ones at the end. -/
def dropVoid (rows : List Text) : List Text := (rows.reverse.dropWhile isVoid).reverse

/-- Rows as a text whose last row is closed by a line feed. -/
def close (rows : List Text) : Text := if rows.isEmpty then [] else Text.joinRows rows ++ ['\n']

/-- The formatted text of a source. -/
def text (s : Source) (width : Nat) : Text :=
  let literals := s.literalSpans
  close (dropVoid (s.text.rows.zipIdx.map fun (raw, n) => row literals width raw n))

/-- The edit that formats a source: none if formatting is off, the source has errors, or nothing would change. -/
def edit? (settings : FormatSettings) (s : Source) : Option TextEdit :=
  if !settings.enabled || s.hasErrors then none
  else
    let formatted := text s settings.indentWidth
    if formatted = s.text then none
    else some ⟨⟨.zero, (LineIndex.ofText s.text).endPosition⟩, formatted⟩

/-- The widest indentation that fits the memory of a 64-bit machine. -/
def maxIndentWidth : Nat := 0x7fffffffffffffff

/-- Whether formatting a source breaks off: there is something to do, and the indentation does not fit. -/
def breaksOff (settings : FormatSettings) (s : Source) : Bool :=
  settings.enabled && !s.hasErrors && maxIndentWidth < settings.indentWidth

/-- The formatted text and the edit, for widths that fit the memory of a machine. -/
def run? (settings : FormatSettings) (s : Source) : Option (Text × Option TextEdit) :=
  if settings.indentWidth ≤ maxIndentWidth then some (text s settings.indentWidth, edit? settings s) else none

end Format

end RubyServer
