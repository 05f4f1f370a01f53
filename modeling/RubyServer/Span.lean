import RubyServer.Text.Basic

/-!
# Points and spans

Points in a text as the parser counts them: rows and byte columns from zero. They are ordered by row, then column.
-/

namespace RubyServer

/-- The number under which a row or column is shown: they count from one, in 64-bit words. -/
def ordinal (n : Nat) : Nat := (n + 1) % UInt64.size

/-- A place in a text: a row and a byte column in it. -/
structure Point where
  row : Nat
  column : Nat
  deriving DecidableEq, Repr, Inhabited

namespace Point

/-- The order of points in a text. -/
protected def le (p q : Point) : Prop := p.row < q.row ∨ p.row = q.row ∧ p.column ≤ q.column

instance : LE Point := ⟨Point.le⟩

instance (p q : Point) : Decidable (p ≤ q) :=
  inferInstanceAs (Decidable (p.row < q.row ∨ p.row = q.row ∧ p.column ≤ q.column))

/-- The strict order of points in a text. -/
protected def lt (p q : Point) : Prop := p.row < q.row ∨ p.row = q.row ∧ p.column < q.column

instance : LT Point := ⟨Point.lt⟩

instance (p q : Point) : Decidable (p < q) :=
  inferInstanceAs (Decidable (p.row < q.row ∨ p.row = q.row ∧ p.column < q.column))

/-- Points are shown counting from one. -/
def display (p : Point) : String :=
  let row := ordinal p.row
  let column := ordinal p.column
  s!"{row}:{column}"

end Point

/-- A stretch of text between two points. -/
structure Span where
  start : Point
  stop : Point
  deriving DecidableEq, Repr, Inhabited

namespace Span

/-- The empty span at the start of a text. -/
def zero : Span := ⟨⟨0, 0⟩, ⟨0, 0⟩⟩

/-- A span within one row. -/
def onRow (row start stop : Nat) : Span := ⟨⟨row, start⟩, ⟨row, stop⟩⟩

/-- How many rows the end of a span lies below its start. -/
def rowCount (s : Span) : Nat := s.stop.row - s.start.row

/-- Whether a span ends on a later row than it starts on. -/
def isMultirow (s : Span) : Bool := s.start.row < s.stop.row

/-- Whether a point lies in a span, both ends included. -/
def contains (s : Span) (p : Point) : Bool := s.start ≤ p && p ≤ s.stop

/-- Spans are shown as their two points. -/
def display (s : Span) : String :=
  let start := s.start.display
  let stop := s.stop.display
  s!"{start}-{stop}"

end Span

namespace Text

/-- The point of a byte offset: the line feeds before it, and the bytes since the last of them. -/
def pointAt : Text → Nat → Point
  | [], n => ⟨0, n⟩
  | c :: t, n =>
    if n < c.utf8Size then ⟨0, n⟩
    else
      let p := pointAt t (n - c.utf8Size)
      if c = '\n' then ⟨p.row + 1, p.column⟩
      else if p.row = 0 then ⟨0, c.utf8Size + p.column⟩
      else p

theorem pointAt_zero (t : Text) : t.pointAt 0 = ⟨0, 0⟩ := by
  cases t with
  | nil => rfl
  | cons c t => rw [pointAt, if_pos c.utf8Size_pos]

end Text

end RubyServer
