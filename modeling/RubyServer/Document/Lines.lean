import RubyServer.Position
import RubyServer.Text.Units

/-!
# Lines of a document

Editors agree with the server on lines that end at any of eight line breaks: CRLF, LF, CR, VT, FF, NEL and the two
Unicode separators. A document has one line more than it has breaks. `offset?` finds the character that a position
names: a column past the end of the line's content stands for that end, and a column inside a character for its start.
Only LF and CRLF are left out of a line's content.

The lines with their breaks make up the document (`flatten_lines`).
-/

namespace RubyServer

/-- The characters that break a line by themselves. -/
def isBreak (c : Char) : Bool :=
  c == '\n' || c == '\r' || c == '\x0b' || c == '\x0c' || c == '\u0085' || c == '\u2028' || c == '\u2029'

/-- Why a range does not name a stretch of a document. -/
inductive RangeFault where
  | lineOutOfBounds (line lineCount : Nat)
  | reversed (range : Range)
  deriving DecidableEq, Repr

/-- The wording of a fault. -/
def RangeFault.message : RangeFault → String
  | .lineOutOfBounds line count => s!"line {line} out of bounds ({count} lines)"
  | .reversed ⟨⟨line, character⟩, ⟨line', character'⟩⟩ =>
    "range start " ++ toString line ++ ":" ++ toString character ++ " is after end " ++ toString line' ++ ":"
      ++ toString character'

namespace Document

/-- The lines of a document with their breaks. -/
def lines : Text → List Text
  | [] => [[]]
  | '\r' :: '\n' :: t => ['\r', '\n'] :: lines t
  | c :: t =>
    if isBreak c then [c] :: lines t
    else
      match lines t with
      | [] => [[c]]
      | l :: ls => (c :: l) :: ls

theorem lines_ne_nil (t : Text) : lines t ≠ [] := by
  fun_induction lines t <;> simp

/-- The lines of a document with their breaks make up the document. -/
theorem flatten_lines (t : Text) : (lines t).flatten = t := by
  fun_induction lines t with
  | case1 => rfl
  | case2 t ih => simp [ih]
  | case3 c t _ _ ih => simp [ih]
  | case4 c t _ _ h ih => exact absurd h (lines_ne_nil t)
  | case5 c t _ _ l ls h ih => rw [h] at ih; simp [← ih]

/-- A line without the LF or CRLF at its end. -/
def content (line : Text) : Text := if line.endsWith '\n' then Text.dropFinal '\r' line.dropLast else line

/-- The number of characters before a position. The units of its column are counted on from those before the line, up to
those before the end of the line's content, and the place is then found in the whole document. -/
def offset? (t : Text) (p : Position) : Except RangeFault Nat :=
  let ls := lines t
  match ls[p.line]? with
  | some line =>
    let start := (ls.take p.line).flatten.length
    let stop := start + (content line).length
    .ok (t.charOffset (min (t.unitOffset start + p.character) (t.unitOffset stop)))
  | none =>
    -- what follows a break at the end of the document is a line as well
    if p.line = ls.length ∧ p.character = 0 then .ok t.length else .error (.lineOutOfBounds p.line ls.length)

end Document

end RubyServer
