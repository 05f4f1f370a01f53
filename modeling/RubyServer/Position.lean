import RubyServer.Span
import RubyServer.Text.Lines
import RubyServer.Text.Units

/-!
# Positions

Places in a text as an editor names them: a line and a UTF-16 column, both 32-bit words. `LineIndex` converts between
these and the parser's points; its lines are the rows of the text.
-/

namespace RubyServer

/-- A place in a text in the editor's terms. -/
structure Position where
  line : Nat
  character : Nat
  deriving DecidableEq, Repr, Inhabited

namespace Position

/-- The start of every text. -/
def zero : Position := ⟨0, 0⟩

/-- The order of positions in a text. -/
protected def le (p q : Position) : Prop := p.line < q.line ∨ p.line = q.line ∧ p.character ≤ q.character

instance : LE Position := ⟨Position.le⟩

instance (p q : Position) : Decidable (p ≤ q) :=
  inferInstanceAs (Decidable (p.line < q.line ∨ p.line = q.line ∧ p.character ≤ q.character))

/-- The strict order of positions in a text. -/
protected def lt (p q : Position) : Prop := p.line < q.line ∨ p.line = q.line ∧ p.character < q.character

instance : LT Position := ⟨Position.lt⟩

instance (p q : Position) : Decidable (p < q) :=
  inferInstanceAs (Decidable (p.line < q.line ∨ p.line = q.line ∧ p.character < q.character))

end Position

/-- A stretch of text between two positions. -/
structure Range where
  start : Position
  stop : Position
  deriving DecidableEq, Repr, Inhabited

/-- Line numbers are sent as 32-bit words; larger ones wrap around. -/
def lineWord (row : Nat) : Nat := row % UInt32.size

/-- Columns are counted in 32-bit words as well. -/
def columnWord (units : Nat) : Nat := units % UInt32.size

/-- The rows of a text, to convert places in it. -/
structure LineIndex where
  rows : List Text
  deriving DecidableEq, Repr

namespace LineIndex

/-- The index of a text. -/
def ofText (t : Text) : LineIndex := ⟨t.rows⟩

/-- A row of the text; rows past the end are empty. -/
def row (index : LineIndex) (n : Nat) : Text := index.rows.getD n []

/-- The number of rows. -/
def rowCount (index : LineIndex) : Nat := index.rows.length

/-- The position of a point. -/
def position (index : LineIndex) (p : Point) : Position :=
  ⟨lineWord p.row, columnWord (Text.unitColumn (index.row p.row) p.column)⟩

/-- The point of a position. -/
def point (index : LineIndex) (p : Position) : Point :=
  ⟨p.line, Text.byteColumn (index.row p.line) p.character⟩

/-- The range of a span. -/
def range (index : LineIndex) (s : Span) : Range := ⟨index.position s.start, index.position s.stop⟩

/-- The position of the end of the text. -/
def endPosition (index : LineIndex) : Position :=
  let last := index.rows.length - 1
  ⟨lineWord last, columnWord (Text.unitSize (index.row last))⟩

end LineIndex

end RubyServer
