import RubyServer.Text.Basic

/-!
# Rows and lines

Rows are what lies between line feeds (`rows`): a text has one row more than it has line feeds, and a row keeps a
carriage return at its end. Lines are rows as a reader sees them (`lines`): the carriage return of a CRLF is dropped
and nothing follows the last line feed, so that the empty text has no line.

Nothing is lost in rows: joined by line feeds they are the text again (`joinRows_rows`).
-/

namespace RubyServer.Text

/-- The rows of a text: the stretches between line feeds. -/
def rows (t : Text) : List Text := split '\n' t

/-- The lines among the rows of a text: all but the last row end in a line feed. -/
def linesOfRows : List Text → List Text
  | [] => []
  | [last] => if last.isEmpty then [] else [last]
  | row :: rest => dropFinal '\r' row :: linesOfRows rest

/-- The lines of a text, without their terminators. -/
def lines (t : Text) : List Text := linesOfRows (rows t)

/-- Rows joined again by line feeds. -/
def joinRows : List Text → Text
  | [] => []
  | [last] => last
  | row :: rest => row ++ '\n' :: joinRows rest

theorem split_ne_nil (separator : Char) (t : Text) : split separator t ≠ [] := by
  fun_induction split separator t <;> simp

/-- Rows joined again give the text. -/
theorem joinRows_rows (t : Text) : joinRows (rows t) = t := by
  rw [rows]
  fun_induction split '\n' t with
  | case1 => rfl
  | case2 t ih =>
    cases h : split '\n' t with
    | nil => exact absurd h (split_ne_nil '\n' t)
    | cons r rs => rw [h] at ih; simp [joinRows, ih]
  | case3 c t _ h _ => exact absurd h (split_ne_nil '\n' t)
  | case4 c t _ r rs h ih =>
    rw [h] at ih
    rw [← ih]
    cases rs <;> simp [joinRows]

end RubyServer.Text
