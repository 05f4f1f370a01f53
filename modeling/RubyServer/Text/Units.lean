import RubyServer.Text.Basic

/-!
# UTF-16 columns

Editors count columns in UTF-16 code units, the parser counts them in bytes. A column inside a character stands for
the start of that character, and a column past the end of a line stands for its end. The same holds of offsets in a whole
text.
-/

namespace RubyServer

/-- The number of UTF-16 code units of a character: two outside the basic plane. -/
def unitsOf (c : Char) : Nat := if c.toNat < 0x10000 then 1 else 2

namespace Text

/-- The number of UTF-16 code units of a text. -/
def unitSize : Text → Nat
  | [] => 0
  | c :: t => unitsOf c + unitSize t

/-- The UTF-16 column of a byte column of a line. -/
def unitColumn (line : Text) (byteColumn : Nat) : Nat := unitSize (takeBytes byteColumn line)

/-- The longest run of whole characters at the start of a text that takes at most `n` code units. -/
def takeUnits (n : Nat) : Text → Text
  | [] => []
  | c :: t => if unitsOf c ≤ n then c :: takeUnits (n - unitsOf c) t else []

/-- The byte column of a UTF-16 column of a line. -/
def byteColumn (line : Text) (unitColumn : Nat) : Nat := byteSize (takeUnits unitColumn line)

/-- The number of code units before a character of a text. -/
def unitOffset (t : Text) (chars : Nat) : Nat := unitSize (t.take chars)

/-- The number of characters before a code unit of a text. -/
def charOffset (t : Text) (units : Nat) : Nat := (takeUnits units t).length

end Text

end RubyServer
